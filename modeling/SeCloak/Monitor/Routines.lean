import SeCloak.Monitor.Switch

/-!
# What the routines of the monitor do

One equation for each routine of the monitor: the registers, banks and words of memory that it leaves.
`ctx` is the address of `struct sm_ctx`; the numbers are offsets of its fields in words.
-/

namespace SeCloak
open Misc

/-! ## Registers in memory -/

namespace SmModeRegs

theorem words_length (b : SmModeRegs) : b.words.length = 17 := rfl

theorem load_of_get {m : Words} {a : Word} {b : SmModeRegs} (h : m.get a 17 = b.words) :
    SmModeRegs.load m a = b := by
  unfold SmModeRegs.load
  cases b
  simp only [SmModeRegs.mk.injEq]
  refine ⟨?_, ?_, ?_, ?_, ?_, ?_, ?_, ?_, ?_, ?_, ?_, ?_, ?_, ?_, ?_, ?_, ?_⟩ <;>
    exact Words.apply_of_get h rfl

end SmModeRegs

/-- What a C function may change does not matter before it. -/
theorem Scratch.regs_congr {x : Scratch} {v : Word} {r r' : Nat → Word}
    (h : ∀ n, 4 ≤ n → r n = r' n) : x.regs v r = x.regs v r' := by
  funext n
  unfold Scratch.regs
  split
  · rfl
  · rfl
  · rfl
  · rfl
  · rfl
  · rename_i h0 h1 h2 h3 _
    have hn : n ≠ 0 ∧ n ≠ 1 ∧ n ≠ 2 ∧ n ≠ 3 := ⟨h0, h1, h2, h3⟩
    exact h n (by omega)

/-- The physical address that a virtual one is translated to. -/
def Cpu.Cp15.phys (p : Cpu.Cp15) (va : Word) : Word :=
  (va &&& 0xFFF) ||| (p.par (va &&& ~~~0xFFF) &&& ~~~0xFFF)

namespace Cpu

variable {c : Cpu} {r r' : Nat → Word} {m : Words} {a a' b b' v ctx vectors : Word} {x : Scratch}

/-- The registers with the words at `a` for `n` of them from `k` on. -/
def regsFrom (m : Words) (a : Word) (k n : Nat) (r : Nat → Word) : Nat → Word := fun j =>
  if k ≤ j ∧ j < k + n then m (wordAt a (j - k)) else r j

/-- What was in a register that is loaded does not matter. -/
theorem regsFrom_update {k n j : Nat} (h : k ≤ j ∧ j < k + n) :
    regsFrom m a k n (Function.update r j v) = regsFrom m a k n r := by
  funext i
  unfold regsFrom
  by_cases hi : i = j
  · rw [hi, if_pos h, if_pos h]
  · rw [Function.update_of_ne hi]

theorem regsFrom_update_apart {k n j : Nat} (h : ¬ (k ≤ j ∧ j < k + n)) :
    regsFrom m a k n (Function.update r j v) = Function.update (regsFrom m a k n r) j v := by
  funext i
  unfold regsFrom
  by_cases hi : i = j
  · rw [hi, if_neg h, Function.update_self, Function.update_self]
  · rw [Function.update_of_ne hi, Function.update_of_ne hi]

/-- All registers are loaded, so that none is left from before. -/
theorem regsFrom_all (h : ∀ n, 13 ≤ n → r n = r' n) :
    regsFrom m a 0 8 (regsFrom m a' 8 5 r) = regsFrom m a 0 8 (regsFrom m a' 8 5 r') := by
  funext n
  unfold regsFrom
  split
  · rfl
  · split
    · rfl
    · exact h n (by omega)

theorem low_eq : low = (List.range' 0 8).map Reg.r := rfl

theorem high_eq : high = (List.range' 8 5).map Reg.r := rfl

/-- Consecutive registers are loaded from consecutive words. -/
theorem load_range (n k i : Nat) (h : c.mode = .mon) :
    load m a ((List.range' k n).map Reg.r) i c = { c with r := regsFrom m (wordAt a i) k n c.r } := by
  induction n generalizing k i c with
  | zero =>
    have hr : regsFrom m (wordAt a i) k 0 c.r = c.r := by
      funext j
      exact if_neg (by omega)
    rw [hr]
    rfl
  | succ n ih =>
    have hset : c.set (.r k) (m (wordAt a i)) = { c with r := Function.update c.r k (m (wordAt a i)) } :=
      if_neg fun hf => absurd (h.symm.trans hf.2) (by decide)
    have hrest := @ih { c with r := Function.update c.r k (m (wordAt a i)) } (k + 1) (i + 1) h
    rw [List.range'_succ, List.map_cons, load, hset, hrest]
    congr 1
    funext j
    dsimp only [regsFrom]
    rw [Words.wordAt_wordAt, Words.wordAt_wordAt]
    by_cases hj : j = k
    · subst hj
      rw [if_neg (by omega), if_pos (by omega), Function.update_self, Nat.sub_self]
      rfl
    · rw [Function.update_of_ne hj]
      by_cases hin : k + 1 ≤ j ∧ j < k + 1 + n
      · rw [if_pos hin, if_pos (by omega)]
        congr 2
        omega
      · rw [if_neg hin, if_neg (by omega)]

/-- Consecutive registers are stored as they are. -/
theorem map_get_range (n k : Nat) (h : c.mode = .mon) :
    ((List.range' k n).map Reg.r).map c.get = (List.range' k n).map c.r := by
  rw [List.map_map]
  apply List.map_congr_left
  intro j _
  exact if_neg fun hf => absurd (h.symm.trans hf.2) (by decide)

theorem stm_high (h : c.mode = .mon) :
    c.stm (.r 0) high = { c with mem := c.mem.put (c.r 0) ((List.range' 8 5).map c.r) } := by
  unfold stm
  rw [high_eq, map_get_range _ _ h]
  rfl

/-! ## Registers of the modes -/

/-- The routines for the modes work with `r0` and `r2`. -/
def work (r : Nat → Word) (r0 r2 : Word) : Nat → Word := Function.update (Function.update r 2 r2) 0 r0

theorem work_congr (h : ∀ n, n ≠ 0 → n ≠ 2 → r n = r' n) : work r a b = work r' a b := by
  funext n
  simp only [work, Function.update_apply]
  split_ifs with h0 h2
  · rfl
  · rfl
  · exact h n h0 h2

@[simp] theorem work_work : work (work r a b) a' b' = work r a' b' :=
  work_congr fun _ h0 h2 => (Function.update_of_ne h0 _ _).trans (Function.update_of_ne h2 _ _)

@[simp] theorem work_update_zero : work (Function.update r 0 v) a b = work r a b :=
  work_congr fun _ h0 _ => Function.update_of_ne h0 _ _

@[simp] theorem work_zero : work r a b 0 = a := rfl

@[simp] theorem work_two : work r a b 2 = b := rfl

theorem work_of_le {n : Nat} (h : 3 ≤ n) : work r a b n = r n := by
  unfold work
  rw [Function.update_of_ne (by omega), Function.update_of_ne (by omega)]

theorem saveMode_eq (m : CpuMode) : c.saveMode m =
    { c with
      cpsr := withMode m c.cpsr
      r := work c.r (wordAt (c.r 0) 3) (c.spsr m)
      mem := c.mem.put (c.r 0) [c.spsr m, c.sp m, c.lr m] } := by
  cases m <;> simp [saveMode, cps, mrsSpsr, stmInc, stm, get, set, mode, sp, lr, spsr, work]

/-- The registers of the modes are stored in order. -/
theorem smSaveModesRegs_eq (h : c.mode = .mon) : c.smSaveModesRegs =
    { c with
      r := work c.r (wordAt (c.r 0) 17) c.banks.undSpsr
      mem := c.mem.put (c.r 0) c.banks.words } := by
  have hcpsr : withMode .mon c.cpsr = c.cpsr := withMode_mon h
  simp [smSaveModesRegs, saveMode_eq, cps, stmInc, stm, get, set, mode, sp, lr, spsr, hcpsr,
    Words.wordAt_wordAt, Words.put_append, SmModeRegs.words]

theorem restoreMode_eq (m : CpuMode) : c.restoreMode m =
    { ((c.setSpsr (c.mem (wordAt (c.r 0) 0)) m).setSp (c.mem (wordAt (c.r 0) 1)) m).setLr
      (c.mem (wordAt (c.r 0) 2)) m with
      cpsr := withMode m c.cpsr
      r := work c.r (wordAt (c.r 0) 3) (c.mem (wordAt (c.r 0) 0)) } := by
  have hr : ∀ (f : Nat → Word) (a b : Word),
      Function.update (Function.update f 0 a) 2 b = Function.update (Function.update f 2 b) 0 a :=
    fun f a b => Function.update_comm (by decide) _ _ _
  cases m <;>
    simp [restoreMode, cps, msrSpsr, ldmInc, load, get, set, mode, setSp, setLr, setSpsr, work, hr]

/-- The registers of the modes are loaded in order. -/
theorem smRestoreModesRegs_eq (h : c.mode = .mon) : c.smRestoreModesRegs =
    { c with
      r := work c.r (wordAt (c.r 0) 17) (c.mem (wordAt (c.r 0) 14))
      banks := .load c.mem (c.r 0) } := by
  have hcpsr : withMode .mon c.cpsr = c.cpsr := withMode_mon h
  simp [smRestoreModesRegs, restoreMode_eq, cps, ldmInc, load, get, set, mode, setSp, setLr, setSpsr,
    hcpsr, Words.wordAt_wordAt, SmModeRegs.load]

/-- The registers of the modes are exchanged for others. -/
theorem exchange_eq {src dst : Word} (h : c.mode = .mon) :
    (c |>.movImm (.r 0) src |>.smSaveModesRegs |>.movImm (.r 0) dst |>.smRestoreModesRegs) =
      { c with
        r := work c.r (wordAt dst 17) (c.mem.put src c.banks.words (wordAt dst 14))
        banks := .load (c.mem.put src c.banks.words) dst
        mem := c.mem.put src c.banks.words } := by
  have hmode : CpuMode.ofBits c.cpsr = .mon := h
  rw [smSaveModesRegs_eq (by simp [movImm, set, mode, hmode]),
    smRestoreModesRegs_eq (by simp [movImm, set, mode, hmode])]
  simp [movImm, set, mode, hmode]

/-! ## The ways in and out -/

/-- What the monitor stores when it is entered. -/
theorem entered_eq {n : Nat} (h : c.mode = .mon) (hsp : c.monSp = wordAt ctx (n + 10)) :
    (c |>.srsdb |>.push low) =
      { c with
        monSp := wordAt ctx n
        mem := (c.mem.put (wordAt ctx (n + 8)) [c.monLr, c.monSpsr]).put (wordAt ctx n)
          ((List.range' 0 8).map c.r) } := by
  have hmode : CpuMode.ofBits c.cpsr = .mon := h
  have hstate : wordAt ctx (n + 10) - 8#32 = wordAt ctx (n + 8) :=
    Words.wordAt_sub (Nat.le_add_left 2 (n + 8))
  have hlow : wordAt ctx (n + 8) - 32#32 = wordAt ctx n := Words.wordAt_sub (Nat.le_add_left 8 n)
  unfold push
  rw [low_eq, map_get_range _ _ (by simp [srsdb, mode, hmode])]
  simp [srsdb, set, get, mode, hmode, sp, lr, spsr, setSp, hsp, hstate, hlow]

/-- An FIQ and a data abort correct the link register first. -/
theorem corrected_eq {n : Nat} (h : c.mode = .mon) (hsp : c.monSp = wordAt ctx (n + 10)) :
    (c |>.sub .lr .lr 4 |>.srsdb |>.push low) =
      { c with
        monLr := c.monLr - 4
        monSp := wordAt ctx n
        mem := (c.mem.put (wordAt ctx (n + 8)) [c.monLr - 4, c.monSpsr]).put (wordAt ctx n)
          ((List.range' 0 8).map c.r) } := by
  have hmode : CpuMode.ofBits c.cpsr = .mon := h
  have hlr : c.sub .lr .lr 4 = { c with monLr := c.monLr - 4 } := by
    simp [sub, set, get, mode, hmode, setLr, lr]
  rw [hlr, @entered_eq { c with monLr := c.monLr - 4 } ctx n h hsp]

theorem smExit_eq (h : c.mode = .mon) : c.smExit =
    { c with
      r := regsFrom c.mem c.monSp 0 8 c.r
      monSp := wordAt c.monSp 10
      pc := c.mem (wordAt c.monSp 8)
      cpsr := c.mem (wordAt c.monSp 9) } := by
  have hmode : CpuMode.ofBits c.cpsr = .mon := h
  have hpop : c.pop low = { c with r := regsFrom c.mem c.monSp 0 8 c.r, monSp := wordAt c.monSp 8 } := by
    unfold pop ldmInc
    rw [low_eq, load_range _ _ _ (by simp [set, mode, setSp, hmode])]
    simp [get, set, mode, sp, setSp, hmode, Words.wordAt_zero]
  simp [smExit, hpop, rfefd, get, set, mode, sp, setSp, hmode, Words.wordAt_wordAt]

theorem smRetToNsec_eq (h : c.mode = .mon) : c.smRetToNsec =
    { c with
      r := regsFrom c.mem (wordAt c.monSp 57) 0 8 (regsFrom c.mem (wordAt c.monSp 51) 8 5 c.r)
      monSp := wordAt c.monSp 67
      pc := c.mem (wordAt c.monSp 65)
      cpsr := c.mem (wordAt c.monSp 66)
      scr := c.scr ||| scrNsFiqEa } := by
  have hmode : CpuMode.ofBits c.cpsr = .mon := h
  unfold smRetToNsec ldm
  rw [high_eq, load_range _ _ _ (by simp [addWords, get, set, mode, sp, hmode]),
    smExit_eq (by simp [addWords, scrNormal, get, set, mode, sp, setSp, hmode])]
  simp [addWords, scrNormal, get, set, mode, sp, setSp, hmode, Words.wordAt_wordAt, Words.wordAt_zero,
    smCtxNsec, smCtxR0, smCtxR8]
  rw [regsFrom_update (by omega), regsFrom_update_apart (by omega), regsFrom_update (by omega)]

/-! ## Secure monitor calls -/

theorem smFromNsec_eq (h : c.mode = .mon) : c.smFromNsec vectors x =
    let ctx := c.r 0
    let mem := c.mem.put (wordAt ctx 34) c.banks.words
    let mem' := mem.put (wordAt ctx 24) (mem.get (wordAt ctx 57) 8)
    { c with
      banks := .load mem (wordAt ctx 1)
      mem := mem'.put (wordAt ctx 32) [smcEntry vectors (mem' (wordAt ctx 24))] }.returns x 1 := by
  have hget : c.get (.r 0) = c.r 0 := rfl
  have hr : ∀ v a b, x.regs v (work c.r a b) = x.regs v c.r :=
    fun _ _ _ => Scratch.regs_congr fun _ hn => work_of_le (by omega)
  unfold smFromNsec
  rw [hget]
  dsimp only
  rw [exchange_eq h]
  simp [smCtxNsec, smCtxSec, smCtxR0, smCtxMonLr, returns, hr]

/-- `r0` to `r7` are passed on as they were stored before. -/
theorem smcFromNsec_eq {low : List Word} (h : c.mode = .mon) (hsp : c.monSp = wordAt ctx 57)
    (hlow : c.mem.get (wordAt ctx 57) 8 = v :: low) : c.smcFromNsec vectors x =
      let m := (c.mem.put (wordAt ctx 51) ((List.range' 8 5).map c.r)).put (wordAt ctx 34) c.banks.words
      let m' := ((m.put (wordAt ctx 24) (v :: low)).put (wordAt ctx 32) [smcEntry vectors v]).put
        (ctx - BitVec.ofNat 32 (4 * x.stack.length)) x.stack
      { c with
        r := regsFrom m' (wordAt ctx 24) 0 8 (x.regs 1 c.r)
        banks := .load m (wordAt ctx 1)
        monSp := wordAt ctx 34
        pc := m' (wordAt ctx 32)
        cpsr := m' (wordAt ctx 33)
        scr := c.scr &&& ~~~scrNsFiqEa
        mem := m' } := by
  have hmode : CpuMode.ofBits c.cpsr = .mon := h
  have hctx : wordAt ctx 57 - 228#32 = ctx := Words.wordAt_sub_self
  have hr : ∀ v a b, x.regs v (Function.update (Function.update c.r 1 a) 0 b) = x.regs v c.r :=
    fun _ _ _ => Scratch.regs_congr fun n hn => by
      rw [Function.update_of_ne (by omega), Function.update_of_ne (by omega)]
  have hhigh : ∀ a b, (List.range' 8 5).map (Function.update (Function.update c.r 1 a) 0 b) =
      (List.range' 8 5).map c.r := fun _ _ => rfl
  have hkept : ((c.mem.put (wordAt ctx 51) ((List.range' 8 5).map c.r)).put (wordAt ctx 34)
      c.banks.words).get (wordAt ctx 57) 8 = v :: low := by
    rw [Words.get_put_apart (by simp [SmModeRegs.words_length]) (by decide) (by decide)
      (by simp [SmModeRegs.words_length]), Words.get_put_apart (by simp) (by decide) (by decide)
      (by simp), hlow]
  unfold smcFromNsec
  dsimp only
  unfold stm
  rw [high_eq,
    map_get_range _ _ (by simp [addWords, scrSecure, sub, set, get, mode, sp, hmode, setSp]),
    smFromNsec_eq (by simp [mov, addWords, scrSecure, sub, set, get, mode, sp, hmode, setSp]),
    if_neg (by simp [get, returns, Scratch.regs]),
    smExit_eq (by simp [mov, addWords, scrSecure, sub, set, get, mode, sp, hmode, setSp, returns])]
  simp [mov, addWords, scrSecure, sub, set, get, mode, sp, hmode, setSp, returns, smCtxNsec, smCtxSec,
    smCtxR0, smCtxR8, hsp, hctx, hr, hhigh, Words.wordAt_wordAt, hkept, Words.put_cons_self]

/-- The results of a call, or the old words at the end of an FIQ. -/
def resultsIn (m : Words) (ctx : Word) : Words :=
  if m (wordAt ctx 24) = returnFiqDone then m
  else m.put (wordAt ctx 57) [m (wordAt ctx 25), m (wordAt ctx 26), m (wordAt ctx 27), m (wordAt ctx 28)]

theorem smcResults_eq (h : c.mode = .mon) (hsp : c.monSp = ctx) : ∃ r : Nat → Word,
    (∀ n, 13 ≤ n → r n = c.r n) ∧
      (c |>.addWords (.r 8) .sp (smCtxSec + smCtxR0) |>.ldm (.r 8) [.r 0, .r 1, .r 2, .r 3, .r 4]
        |>.movImm (.r 9) returnFiqDone |>.smcResults) = { c with r := r, mem := resultsIn c.mem ctx } := by
  have hmode : CpuMode.ofBits c.cpsr = .mon := h
  unfold smcResults resultsIn
  by_cases hf : c.mem (wordAt ctx 24) = returnFiqDone
  · rw [if_pos hf, if_pos (by simpa [addWords, ldm, load, movImm, set, get, mode, sp, hmode, smCtxSec,
      smCtxR0, hsp, Words.wordAt_wordAt] using hf)]
    refine ⟨_, ?_, by
      simp [addWords, ldm, load, movImm, set, get, mode, sp, hmode, smCtxSec, smCtxR0, hsp]; rfl⟩
    intro n hn
    simp only [Function.update_apply]
    split_ifs <;> first | omega | rfl
  · rw [if_neg hf, if_neg (by simpa [addWords, ldm, load, movImm, set, get, mode, sp, hmode, smCtxSec,
      smCtxR0, hsp, Words.wordAt_wordAt] using hf)]
    refine ⟨_, ?_, by
      simp [addWords, ldm, load, movImm, stm, set, get, mode, sp, hmode, smCtxSec, smCtxNsec, smCtxR0,
        hsp, Words.wordAt_wordAt]; rfl⟩
    intro n hn
    simp only [Function.update_apply]
    split_ifs <;> first | omega | rfl

theorem smcFromSec_eq (h : c.mode = .mon) (hsp : c.monSp = wordAt ctx 24) : c.smcFromSec =
    let m := resultsIn (c.mem.put (wordAt ctx 1) c.banks.words) ctx
    { c with
      r := regsFrom m (wordAt ctx 57) 0 8 (regsFrom m (wordAt ctx 51) 8 5 c.r)
      banks := .load m (wordAt ctx 34)
      monSp := wordAt ctx 67
      pc := m (wordAt ctx 65)
      cpsr := m (wordAt ctx 66)
      scr := c.scr ||| scrNsFiqEa
      mem := m } := by
  have hmode : CpuMode.ofBits c.cpsr = .mon := h
  have hctx : wordAt ctx 24 - 96#32 = ctx := Words.wordAt_sub_self
  have hsaved : (c |>.sub .sp .sp (BitVec.ofNat 32 (4 * (smCtxSec + smCtxR0)))
      |>.addWords (.r 0) .sp smCtxSec |>.smSaveModesRegs) =
        { c with
          r := work c.r (wordAt ctx 18) c.banks.undSpsr
          monSp := ctx
          mem := c.mem.put (wordAt ctx 1) c.banks.words } := by
    rw [smSaveModesRegs_eq (by simp [addWords, sub, set, get, mode, sp, hmode, setSp])]
    simp [addWords, sub, set, get, mode, sp, hmode, setSp, smCtxSec, smCtxR0, hsp, hctx,
      Words.wordAt_wordAt]
  unfold smcFromSec
  rw [hsaved]
  obtain ⟨r, hr, hres⟩ := @smcResults_eq { c with
    r := work c.r (wordAt ctx 18) c.banks.undSpsr
    monSp := ctx
    mem := c.mem.put (wordAt ctx 1) c.banks.words } ctx h rfl
  have hlast : ∀ n, 13 ≤ n → work r (wordAt ctx 51)
      (resultsIn (c.mem.put (wordAt ctx 1) c.banks.words) ctx (wordAt ctx 48)) n = c.r n := by
    intro n hn
    rw [work_of_le (by omega), hr n hn]
    exact work_of_le (by omega)
  rw [hres, smRestoreModesRegs_eq (by simp [addWords, set, get, mode, hmode]),
    smRetToNsec_eq (by simp [addWords, set, get, mode, hmode])]
  simp [addWords, set, get, mode, sp, hmode, smCtxNsec, Words.wordAt_wordAt, regsFrom_all hlast]

/-! ## FIQs -/

theorem smFiqEntry_eq (h : c.mode = .mon) (hsp : c.monSp = wordAt ctx 67) :
    c.smFiqEntry vectors =
      let m₁ := c.mem.put (wordAt ctx 65) [c.monLr - 4, c.monSpsr]
      let m₂ := m₁.put (wordAt ctx 57) ((List.range' 0 8).map c.r)
      let m₃ := (m₂.put (wordAt ctx 34) c.banks.words).put (wordAt ctx 51) ((List.range' 8 5).map c.r)
      let m₄ := m₃.put (wordAt ctx 32) [fiqEntry vectors]
      { c with
        r := work (Function.update c.r 1 (c.scr &&& ~~~scrNsFiqEa)) (wordAt ctx 18) (m₄ (wordAt ctx 15))
        banks := .load m₄ (wordAt ctx 1)
        monSp := wordAt ctx 34
        monLr := c.monLr - 4
        pc := fiqEntry vectors
        cpsr := m₄ (wordAt ctx 33)
        scr := c.scr &&& ~~~scrNsFiqEa
        mem := m₄ } := by
  have hmode : CpuMode.ofBits c.cpsr = .mon := h
  have hctx : wordAt ctx 57 - 228#32 = ctx := Words.wordAt_sub_self
  have hhigh : ∀ (r : Nat → Word) (u a b : Word), (List.range' 8 5).map (work (Function.update r 1 u) a b) =
      (List.range' 8 5).map r := fun _ _ _ _ => rfl
  unfold smFiqEntry
  rw [corrected_eq h hsp]
  unfold stmInc stm
  rw [smSaveModesRegs_eq (by simp [addWords, scrSecure, sub, set, get, mode, sp, hmode, setSp]), high_eq,
    map_get_range _ _ (by simp [addWords, scrSecure, sub, set, get, mode, sp, hmode, setSp]),
    smRestoreModesRegs_eq (by
      simp [addWords, scrSecure, sub, movImm, str, set, get, mode, sp, hmode, setSp])]
  simp [addWords, scrSecure, sub, movImm, str, rfefd, set, get, mode, sp, hmode, setSp, smCtxNsec,
    smCtxSec, smCtxR0, smCtxMonLr, hctx, Words.wordAt_wordAt, hhigh]
  exact Words.put_cons_self

/-! ## Data aborts -/

/-- The arguments of `emu_handle`: the status, and the physical addresses of the data and of the
instruction. -/
theorem daArgs_eq {p : Cp15} (h : c.mode = .mon) : ∃ r : Nat → Word, (∀ n, 8 ≤ n → r n = c.r n) ∧
    r 0 = c.monSp ∧ r 1 = p.dfsr ∧ r 2 = p.phys p.dfar ∧ r 3 = p.phys (c.monLr - 4) ∧
      c.daArgs p = { c with r := r } := by
  have hmode : CpuMode.ofBits c.cpsr = .mon := h
  refine ⟨(c.daArgs p).r, fun n hn => ?_, ?_, ?_, ?_, ?_, ?_⟩
  · have hne : n ≠ 0 ∧ n ≠ 1 ∧ n ≠ 2 ∧ n ≠ 3 ∧ n ≠ 4 ∧ n ≠ 5 ∧ n ≠ 6 := by omega
    simp [daArgs, movImm, mov, and, bic, orr, translate, sub, set, get, mode, sp, lr, hmode, hne]
  all_goals
    simp [daArgs, movImm, mov, and, bic, orr, translate, sub, set, get, mode, sp, lr, hmode, Cp15.phys]

theorem daSave_eq (h : c.mode = .mon) (hsp : c.monSp = wordAt ctx 67) :
    ∃ r : Nat → Word, (∀ n, 8 ≤ n → r n = c.r n) ∧ c.daSave =
      { c with
        r := r
        monSp := ctx
        monLr := c.monLr - 4
        scr := c.scr &&& ~~~scrNsFiqEa
        mem := (((c.mem.put (wordAt ctx 65) [c.monLr - 4, c.monSpsr]).put (wordAt ctx 57)
          ((List.range' 0 8).map c.r)).put (wordAt ctx 56) [c.banks.svcLr]).put (wordAt ctx 51)
          ((List.range' 8 5).map c.r) } := by
  have hmode : CpuMode.ofBits c.cpsr = .mon := h
  have hcpsr : withMode .mon c.cpsr = c.cpsr := withMode_mon h
  have hpush : wordAt ctx 57 - 4#32 = wordAt ctx 56 := Words.wordAt_sub (Nat.le_add_left 1 56)
  have hctx : wordAt ctx 56 - 224#32 = ctx := Words.wordAt_sub_self
  let e : Cpu := { c with
    monLr := c.monLr - 4
    monSp := wordAt ctx 57
    mem := (c.mem.put (wordAt ctx 65) [c.monLr - 4, c.monSpsr]).put (wordAt ctx 57)
      ((List.range' 0 8).map c.r) }
  have hsaved : (e |>.scrSecure 1 |>.cps .svc |>.mov (.r 0) .lr |>.cps .mon |>.push [.r 0]
      |>.sub .sp .sp (BitVec.ofNat 32 (4 * (smCtxNsec + smCtxLr)))
      |>.addWords (.r 0) .sp (smCtxNsec + smCtxR8)) =
        { e with
          r := Function.update (Function.update (Function.update c.r 1 (c.scr &&& ~~~scrNsFiqEa)) 0
            c.banks.svcLr) 0 (wordAt ctx 51)
          monSp := ctx
          scr := c.scr &&& ~~~scrNsFiqEa
          mem := e.mem.put (wordAt ctx 56) [c.banks.svcLr] } := by
    simp [e, scrSecure, cps, mov, push, addWords, sub, set, get, mode, sp, lr, hmode, setSp, hcpsr, hpush,
      hctx, smCtxNsec, smCtxLr, smCtxR8]
  unfold daSave
  rw [corrected_eq h hsp, hsaved, stm_high (by exact h)]
  refine ⟨_, fun n hn => ?_, rfl⟩
  dsimp only
  rw [Function.update_of_ne (by omega), Function.update_of_ne (by omega),
    Function.update_of_ne (by omega)]

/-- What is loaded again after the emulation. -/
theorem daLeave_eq (h : c.mode = .mon) (hsp : c.monSp = ctx) : c.daLeave =
    { c with
      r := regsFrom c.mem (wordAt ctx 57) 0 8 (regsFrom c.mem (wordAt ctx 51) 8 5 c.r)
      banks := { c.banks with svcLr := c.mem (wordAt ctx 56) }
      monSp := wordAt ctx 67
      pc := c.mem (wordAt ctx 65)
      cpsr := c.mem (wordAt ctx 66)
      scr := c.scr ||| scrNsFiqEa } := by
  have hmode : CpuMode.ofBits c.cpsr = .mon := h
  have hcpsr : withMode .mon c.cpsr = c.cpsr := withMode_mon h
  unfold daLeave ldm
  rw [high_eq, load_range _ _ _ (by simp [addWords, get, set, mode, sp, hmode]),
    smExit_eq (by simp [addWords, scrNormal, pop, ldmInc, load, cps, mov, get, set, mode, sp, setSp, setLr,
      hmode])]
  simp [addWords, scrNormal, pop, ldmInc, load, cps, mov, get, set, mode, sp, setSp, setLr, hmode, hcpsr,
    hsp, Words.wordAt_wordAt, Words.wordAt_zero, smCtxNsec, smCtxR8, smCtxLr]
  rw [regsFrom_update (by omega), regsFrom_update_apart (by omega), regsFrom_update (by omega)]

end Cpu

end SeCloak
