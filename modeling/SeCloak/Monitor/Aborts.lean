import SeCloak.Emulation.Instructions
import SeCloak.Monitor.Worlds

/-!
# Data aborts of the normal world
-/

namespace SeCloak
open Misc

section Memory

variable {m : Words} {ctx ret psr lr : Word} {low high stack : List Word} {n : NsecCtx}

/-- The memory in which `emu_handle` finds the context. -/
def trappedMem (m : Words) (ctx : Word) (low high : List Word) (lr ret psr : Word) : Words :=
  (((m.put (wordAt ctx 65) [ret, psr]).put (wordAt ctx 57) low).put (wordAt ctx 56) [lr]).put
    (wordAt ctx 51) high

theorem trappedMem_get (hlow : low.length = 8) (hhigh : high.length = 5) :
    (trappedMem m ctx low high lr ret psr).get (wordAt ctx 57) 8 = low ∧
    (trappedMem m ctx low high lr ret psr).get (wordAt ctx 51) 5 = high ∧
    trappedMem m ctx low high lr ret psr (wordAt ctx 56) = lr ∧
    (trappedMem m ctx low high lr ret psr).get (wordAt ctx 65) 2 = [ret, psr] ∧
    (∀ j k, j + k ≤ 51 → (trappedMem m ctx low high lr ret psr).get (wordAt ctx j) k = m.get (wordAt ctx j) k) := by
  unfold trappedMem
  refine ⟨?_, ?_, Words.apply_eq ?_, ?_, fun j k h => ?_⟩
  · simp [Words.get_put_apart, Words.get_put, hlow, hhigh]
  · simp [Words.get_put, hhigh]
  · rw [Words.get_put_apart (by omega) (by decide) (by decide) (by omega)]
    exact Words.get_put (by simp) rfl
  · simp [Words.get_put_apart, Words.get_put, hlow, hhigh]
  · rw [Words.get_put_apart (by omega) (by omega) (by decide) (by omega),
      Words.get_put_apart (by simp) (by omega) (by decide) (by simp; omega),
      Words.get_put_apart (by omega) (by omega) (by decide) (by omega),
      Words.get_put_apart (by simp) (by omega) (by decide) (by simp; omega)]

/-- The memory after the emulation. -/
def emulatedMem (m : Words) (ctx : Word) (n : NsecCtx) (stack : List Word) : Words :=
  (Cpu.nsecStore m ctx n).put (ctx - BitVec.ofNat 32 (4 * stack.length)) stack

theorem emulatedMem_get (hstack : stack.length ≤ 384) :
    (emulatedMem m ctx n stack).get (wordAt ctx 57) 8 = (List.range' 0 8).map n.r ∧
    (emulatedMem m ctx n stack).get (wordAt ctx 51) 5 = (List.range' 8 5).map n.r ∧
    emulatedMem m ctx n stack (wordAt ctx 56) = n.lr ∧
    emulatedMem m ctx n stack (wordAt ctx 65) = n.monLr ∧
    (∀ j k, j + k ≤ 51 ∨ (66 ≤ j ∧ j + k ≤ 67) →
      (emulatedMem m ctx n stack).get (wordAt ctx j) k = m.get (wordAt ctx j) k) := by
  unfold emulatedMem
  have hs : stack.length ≤ 2 ^ 29 := by omega
  have hstore : Cpu.nsecStore m ctx n = (((m.put (wordAt ctx 51) ((List.range' 8 5).map n.r)).put
      (wordAt ctx 56) [n.lr]).put (wordAt ctx 57) ((List.range' 0 8).map n.r)).put (wordAt ctx 65)
      [n.monLr] := rfl
  rw [hstore]
  refine ⟨?_, ?_, Words.apply_eq ?_, Words.apply_eq ?_, fun j k h => ?_⟩ <;>
    rw [Words.get_put_below hs (by omega)]
  · simp [Words.get_put_apart, Words.get_put]
  · simp [Words.get_put_apart, Words.get_put]
  · rw [Words.get_put_apart (by simp) (by decide) (by decide) (by simp),
      Words.get_put_apart (by simp) (by decide) (by decide) (by simp)]
    exact Words.get_put (by simp) rfl
  · exact Words.get_put (by simp) rfl
  · rw [Words.get_put_apart (by simp) (by omega) (by decide) (by simp; omega),
      Words.get_put_apart (by simp) (by omega) (by decide) (by simp; omega),
      Words.get_put_apart (by simp) (by omega) (by decide) (by simp; omega),
      Words.get_put_apart (by simp) (by omega) (by decide) (by simp; omega)]

end Memory

/-! ## The handler -/

/-- The emulator writes no register but those of the context. -/
theorem emuHandle_keeps {env : Env} {n e : NsecCtx} {status pa ia : Word} {s s' : Sys} {w : List Event}
    (h : Code.Runs (emuHandle env n status pa ia) s w e s') {j : Nat} (hj : 13 ≤ j) : e.r j = n.r j := by
  unfold emuHandle at h
  by_cases hst : status &&& 0x40F ≠ 0x008
  · rw [if_pos hst] at h
    obtain ⟨-, rfl, -⟩ := Code.runs_pure.mp h
    rfl
  rw [if_neg hst] at h
  by_cases hd : ¬ env.data.contains pa
  · rw [if_pos hd] at h
    obtain ⟨-, rfl, -⟩ := Code.runs_pure.mp h
    rfl
  rw [if_neg hd] at h
  by_cases hi : ¬ env.instr.contains ia
  · rw [if_pos hi] at h
    obtain ⟨-, rfl, -⟩ := Code.runs_pure.mp h
    rfl
  rw [if_neg hi] at h
  obtain ⟨w', h', -⟩ := memFetch_bind.mp h
  cases hrt : emuRt (s.load env (env.instr.access ia 4)) with
  | none => simp [hrt] at h'
  | some rt =>
    cases hop : emuDecode (s.load env (env.instr.access ia 4)) with
    | none => simp [hrt, hop] at h'
    | some op =>
      simp only [hrt, hop] at h'
      obtain ⟨w₁, v, s₁, w₂, -, h₂, -⟩ := Code.runs_bind.mp h'
      obtain ⟨-, rfl, -⟩ := Code.runs_pure.mp h₂
      cases rt with
      | lr => rfl
      | r k =>
        have hk : k ≤ 12 := by
          unfold emuRt at hrt
          dsimp only at hrt
          split_ifs at hrt with h12
          · obtain rfl := Rt.r.inj (Option.some.inj hrt)
            exact h12
          · cases Option.some.inj hrt
        exact Function.update_of_ne (by omega) _ _

/-- The mode of the processor. -/
def NsMode.cpu : NsMode → CpuMode
  | .usr => .usr
  | .fiq => .fiq
  | .irq => .irq
  | .svc => .svc
  | .abt => .abt
  | .und => .und
  | .sys => .sys

/-- The registers that the instructions of the normal world work on. -/
def Cpu.nsRegs (c : Cpu) : NsRegs where
  r j := if j < 13 then c.r j else 0
  rFiq := c.rFiq
  sp m := c.sp m.cpu
  lr m := c.lr m.cpu
  carry := c.cpsr.getLsbD 29
  pc := c.pc

/-- The processor after an abort at `c`, with the context that `emu_handle` leaves. -/
def Cpu.aborted (ctx : Word) (x : Scratch) (n : NsecCtx) (c : Cpu) : Cpu :=
  { c with
    r := fun j => if j < 13 then n.r j else c.r j
    banks := { c.banks with svcLr := n.lr }
    monLr := c.pc + 4
    monSpsr := c.cpsr
    pc := n.monLr
    scr := (c.scr &&& ~~~scrNsFiqEa) ||| scrNsFiqEa
    mem := emulatedMem (trappedMem c.mem ctx ((List.range' 0 8).map c.r) ((List.range' 8 5).map c.r)
      c.banks.svcLr (c.pc + 4) c.cpsr) ctx n x.stack }

namespace Cpu

variable {env : Env} {p : Cp15} {c : Cpu} {ctx v : Word} {x : Scratch} {s s' : Sys} {w : List Event}

theorem nsecLoad_trapped : nsecLoad (trappedMem c.mem ctx ((List.range' 0 8).map c.r)
    ((List.range' 8 5).map c.r) c.banks.svcLr (c.pc + 4) c.cpsr) ctx = c.nsRegs.nsecCtx := by
  obtain ⟨hlow, hhigh, hlr, hstate, -⟩ := @trappedMem_get c.mem ctx (c.pc + 4) c.cpsr c.banks.svcLr
    ((List.range' 0 8).map c.r) ((List.range' 8 5).map c.r) rfl rfl
  have hmon := Words.apply_of_get (i := 0) hstate rfl
  rw [Words.wordAt_zero] at hmon
  unfold nsecLoad NsRegs.nsecCtx nsRegs
  simp only [smCtxNsec, smCtxR0, smCtxR8, smCtxLr, smCtxMonLr, Nat.reduceAdd, NsecCtx.mk.injEq]
  refine ⟨funext fun j => ?_, hlr, hmon⟩
  split
  · rw [if_pos (by omega), ← Words.wordAt_wordAt]
    exact Words.apply_of_get hlow (map_range_getElem? (k := 0) (by omega))
  · split
    · rw [← Words.wordAt_wordAt]
      exact Words.apply_of_get hhigh (map_range_getElem? (by omega))
    · rfl

/-- What is restored is what the emulation left. -/
theorem daLeave_emulated {n : NsecCtx} (h : c.mode = .mon) (hsp : c.monSp = ctx) :
    ({ c with mem := nsecStore c.mem ctx n }.returns x v).daLeave =
      { c with
        r := fun j => if j < 13 then n.r j else c.r j
        banks := { c.banks with svcLr := n.lr }
        monSp := wordAt ctx 67
        pc := n.monLr
        cpsr := c.mem (wordAt ctx 66)
        scr := c.scr ||| scrNsFiqEa
        mem := emulatedMem c.mem ctx n x.stack } := by
  subst hsp
  let F := emulatedMem c.mem c.monSp n x.stack
  obtain ⟨hlow, hhigh, hlr, hpc, hkept⟩ := @emulatedMem_get c.mem c.monSp x.stack n x.fits
  have hcpsr : F (wordAt c.monSp 66) = c.mem (wordAt c.monSp 66) :=
    Words.apply_eq ((hkept 66 1 (by decide)).trans Words.get_one)
  have hregs : regsFrom F (wordAt c.monSp 57) 0 8 (regsFrom F (wordAt c.monSp 51) 8 5 (x.regs v c.r)) =
      fun j => if j < 13 then n.r j else c.r j := by
    funext j
    unfold regsFrom
    by_cases h8 : 0 ≤ j ∧ j < 0 + 8
    · rw [if_pos h8, if_pos (by omega)]
      exact Words.apply_of_get hlow (map_range_getElem? h8)
    · rw [if_neg h8]
      by_cases h13 : 8 ≤ j ∧ j < 8 + 5
      · rw [if_pos h13, if_pos (by omega)]
        exact Words.apply_of_get hhigh (map_range_getElem? h13)
      · have hj : 8 ≤ j := by omega
        have h12 : j ≠ 12 := by omega
        rw [if_neg h13, if_neg (by omega), regs_high hj, if_neg h12]
  have hrun := @daLeave_eq ({ c with mem := nsecStore c.mem c.monSp n }.returns x v) c.monSp h rfl
  have hmem : ({ c with mem := nsecStore c.mem c.monSp n }.returns x v).mem = F := rfl
  have hr : ({ c with mem := nsecStore c.mem c.monSp n }.returns x v).r = x.regs v c.r := rfl
  rw [hmem, hr, hregs] at hrun
  change F (wordAt c.monSp 56) = _ at hlr
  change F (wordAt c.monSp 65) = _ at hpc
  rw [hlr, hpc, hcpsr] at hrun
  rw [hrun]
  rfl

/-- The handler of the monitor emulates with the registers of the normal world, and restores what
the emulation leaves. -/
theorem smDaEntry_eq (hsp : c.monSp = wordAt ctx 67) : smDaEntry env p x v (c.take (c.pc + 8)) =
    (emuHandle env c.nsRegs.nsecCtx p.dfsr (p.phys p.dfar) (p.phys c.pc) >>= fun n =>
      pure (c.aborted ctx x n)) := by
  have hret : c.pc + 8 - 4 = c.pc + 4 := by bv_omega
  have hia : c.pc + 4 - 4 = c.pc := BitVec.add_sub_cancel _ _
  obtain ⟨r, hr, hsave⟩ := @daSave_eq (c.take (c.pc + 8)) ctx (ofBits_withMode _ _) hsp
  let t : Cpu := { c.take (c.pc + 8) with
    r := r
    monSp := ctx
    monLr := c.pc + 8 - 4
    scr := c.scr &&& ~~~scrNsFiqEa
    mem := trappedMem c.mem ctx ((List.range' 0 8).map c.r) ((List.range' 8 5).map c.r) c.banks.svcLr
      (c.pc + 8 - 4) c.cpsr }
  change (c.take (c.pc + 8)).daSave = t at hsave
  obtain ⟨r', hr', h0, h1, h2, h3, hargs⟩ := @daArgs_eq t p (ofBits_withMode _ _)
  have hcalled : (c.take (c.pc + 8)).daSave.daArgs p = { t with r := r' } := by
    rw [hsave, hargs]
  change r' 3 = p.phys (c.pc + 8 - 4 - 4) at h3
  rw [hret, hia] at h3
  have hcpsr : t.mem (wordAt ctx 66) = c.cpsr := by
    obtain ⟨-, -, -, hstate, -⟩ := @trappedMem_get c.mem ctx (c.pc + 8 - 4) c.cpsr c.banks.svcLr
      ((List.range' 0 8).map c.r) ((List.range' 8 5).map c.r) rfl rfl
    have hpsr := Words.apply_of_get (i := 1) hstate rfl
    rwa [Words.wordAt_wordAt] at hpsr
  have hleave : ∀ n, (({ t with r := r', mem := nsecStore t.mem ctx n } : Cpu).returns x v).daLeave =
      c.aborted ctx x n := by
    intro n
    have h := @daLeave_emulated { t with r := r' } ctx v x n (ofBits_withMode _ _) rfl
    dsimp only at h
    rw [hcpsr] at h
    have hregs : (fun j => if j < 13 then n.r j else r' j) = fun j => if j < 13 then n.r j else c.r j := by
      funext j
      split
      · rfl
      · exact (hr' j (by omega)).trans (hr j (by omega))
    rw [h, hregs]
    unfold aborted
    simp only [t, hret, ← hsp]
    rfl
  unfold smDaEntry
  rw [hcalled]
  have hget : ({ t with r := r' } : Cpu).get (.r 0) = ctx := h0
  have hget1 : ({ t with r := r' } : Cpu).get (.r 1) = p.dfsr := h1
  have hget2 : ({ t with r := r' } : Cpu).get (.r 2) = p.phys p.dfar := h2
  have hget3 : ({ t with r := r' } : Cpu).get (.r 3) = p.phys c.pc := h3
  dsimp only
  have hload : nsecLoad t.mem ctx = c.nsRegs.nsecCtx := by
    simp only [t]
    rw [hret]
    exact nsecLoad_trapped
  rw [hget, hget1, hget2, hget3, hload]
  exact congrArg (emuHandle env c.nsRegs.nsecCtx p.dfsr (p.phys p.dfar) (p.phys c.pc) >>= ·)
    (funext fun n => congrArg pure (hleave n))

theorem nsRegs_aborted {e : NsecCtx} (h : ∀ j, 13 ≤ j → e.r j = 0) :
    (c.aborted ctx x e).nsRegs = c.nsRegs.restore e := by
  have hr : (fun j => if j < 13 then (if j < 13 then e.r j else c.r j) else 0) = e.r := by
    funext j
    by_cases hj : j < 13
    · rw [if_pos hj, if_pos hj]
    · rw [if_neg hj, h j (by omega)]
  have hlr : (fun m : NsMode => (c.aborted ctx x e).lr m.cpu) =
      Function.update c.nsRegs.lr .svc e.lr := by
    funext m
    cases m <;> rfl
  have hsp : (fun m : NsMode => (c.aborted ctx x e).sp m.cpu) = c.nsRegs.sp := by
    funext m
    cases m <;> rfl
  unfold nsRegs at hlr hsp ⊢
  unfold NsRegs.restore
  rw [hlr, hsp]
  dsimp only [aborted]
  rw [hr]

/-- The handler at the level of instructions does what its model on registers does. -/
theorem smDaEntry_runs (hsp : c.monSp = wordAt ctx 67) {regs' : NsRegs}
    (hrun : Code.Runs (SeCloak.smDaEntry env c.nsRegs p.dfsr (p.phys p.dfar) (p.phys c.pc)) s w regs' s') :
    ∃ e w', Code.Runs (smDaEntry env p x v (c.take (c.pc + 8))) s w' (c.aborted ctx x e) s' ∧
      (c.aborted ctx x e).nsRegs = regs' := by
  obtain ⟨w₁, e, s₁, w₂, hemu, hpure, -⟩ := Code.runs_bind.mp hrun
  obtain ⟨-, rfl, rfl⟩ := Code.runs_pure.mp hpure
  have hkeeps : ∀ j, 13 ≤ j → e.r j = 0 := by
    intro j hj
    rw [emuHandle_keeps hemu hj]
    exact if_neg (by omega)
  refine ⟨e, w₁ ++ [], ?_, nsRegs_aborted hkeeps⟩
  rw [smDaEntry_eq hsp]
  exact Code.runs_bind.mpr ⟨w₁, e, s', [], hemu, Code.runs_pure.mpr ⟨rfl, rfl, rfl⟩, rfl⟩

end Cpu

end SeCloak
