import SeCloak.Misc.Steps
import SeCloak.Monitor.Aborts

/-!
# Runs of the monitor

Runs in which the two worlds execute, call each other, take FIQs and have data aborts emulated. Every
run of the code of the monitor is a run of two machines with registers of their own
(`monitor_refines`).
-/

namespace SeCloak
open Misc

/-- What happens next: the world that runs executes, there is a secure monitor call, an FIQ is taken to
the monitor, or a data abort is. -/
inductive MonAct where
  | run
  | smc
  | fiq
  | abort
  deriving DecidableEq

/-! ## The code -/

/-- The world that runs neither changes the registers of monitor mode and `SCR`, nor the words of
`struct sm_ctx`. -/
structure Cpu.Executes (ctx : Word) (c c' : Cpu) : Prop where
  scr : c'.scr = c.scr
  monSp : c'.monSp = c.monSp
  words : ∀ i, 1 ≤ i → i < 67 → c'.mem (wordAt ctx i) = c.mem (wordAt ctx i)

/-- A step of the code, with the devices and the memory that the emulation works on. `SCR` says which
exceptions are taken to the monitor. -/
inductive MonStep (env : Env) (vectors ctx : Word) : Cpu × Sys → MonAct → Cpu × Sys → Prop
  | run {c c' : Cpu} {s s' : Sys} (h : c.Executes ctx c') : MonStep env vectors ctx (c, s) .run (c', s')
  | smc {c : Cpu} {s : Sys} (x : Scratch) :
    MonStep env vectors ctx (c, s) .smc (Cpu.smSmcEntry vectors x (c.take (c.pc + 4)), s)
  | fiq {c : Cpu} {s : Sys} (h : c.scr &&& 0x4 ≠ 0) :
    MonStep env vectors ctx (c, s) .fiq (Cpu.smFiqEntry vectors (c.take (c.pc + 4)), s)
  | abort {c c' : Cpu} {s s' : Sys} {p : Cpu.Cp15} {x : Scratch} {v : Word} {w : List Event}
    (h : c.scr &&& 0x8 ≠ 0)
    (run : Code.Runs (Cpu.smDaEntry env p x v (c.take (c.pc + 8))) s w c' s') :
    MonStep env vectors ctx (c, s) .abort (c', s')

/-! ## What the code is for -/

namespace Context

/-- What `emu_handle` gets of the registers. -/
def nsecCtx (n : Context) : NsecCtx where
  r j := if h : j < 13 then n.r ⟨j, h⟩ else 0
  lr := n.banks.svcLr
  monLr := n.pc + 4

/-- The registers with what `emu_handle` leaves. -/
def resume (n : Context) (e : NsecCtx) : Context where
  banks := { n.banks with svcLr := e.lr }
  r i := e.r i.val
  pc := e.monLr
  cpsr := n.cpsr

end Context

/-- The worlds have registers of their own. A call passes `r0` to `r11` on, and is served at the
standard or the fast entry; an FIQ may leave anything in `r0` to `r2`. -/
inductive Worlds.Step (env : Env) (vectors : Word) : Worlds × Sys → MonAct → Worlds × Sys → Prop
  | normal {n n' : Context} {b : SmModeRegs} {psr : Word} {s s' : Sys} :
    Step env vectors (.normal n b psr, s) .run (.normal n' b psr, s')
  | secure {n k k' : Context} {s s' : Sys} : Step env vectors (.secure n k, s) .run (.secure n k', s')
  | call {n : Context} {b : SmModeRegs} {psr : Word} {s : Sys} (v : Word) :
    Step env vectors (.normal n b psr, s) .smc (.secure { n with pc := n.pc + 4 }
      ⟨b, Function.update n.r 12 v, smcEntry vectors (n.r 0), psr⟩, s)
  | leave {n k : Context} {s : Sys} :
    Step env vectors (.secure n k, s) .smc (.normal (n.results k) k.banks k.cpsr, s)
  | fiq {n : Context} {b : SmModeRegs} {psr : Word} {s : Sys} {r : Fin 13 → Word}
    (h : ∀ i : Fin 13, 3 ≤ i.val → r i = n.r i) :
    Step env vectors (.normal n b psr, s) .fiq (.secure n ⟨b, r, fiqEntry vectors, psr⟩, s)
  | abort {n : Context} {b : SmModeRegs} {psr : Word} {s s' : Sys} {e : NsecCtx} {w : List Event}
    {status pa ia : Word} (run : Code.Runs (emuHandle env n.nsecCtx status pa ia) s w e s') :
    Step env vectors (.normal n b psr, s) .abort (.normal (n.resume e) b psr, s')

/-! ## Refinement -/

namespace Cpu

variable {env : Env} {c c' : Cpu} {s s' : Sys} {ctx vectors : Word} {w : Worlds} {a : MonAct}

theorem Executes.context (h : c.Executes ctx c') :
    SmModeRegs.load c'.mem (wordAt ctx 1) = SmModeRegs.load c.mem (wordAt ctx 1) ∧
      c'.mem (wordAt ctx 33) = c.mem (wordAt ctx 33) ∧ Context.load c'.mem ctx = Context.load c.mem ctx := by
  have hget : ∀ j n, 1 ≤ j → j + n ≤ 67 →
      c'.mem.get (wordAt ctx j) n = c.mem.get (wordAt ctx j) n := by
    intro j n hj hn
    apply Words.get_congr
    intro i hi
    rw [Words.wordAt_wordAt]
    exact h.words (j + i) (by omega) (by omega)
  refine ⟨SmModeRegs.load_of_get (hget 1 17 (by decide) (by decide)), h.words 33 (by decide) (by decide), ?_⟩
  exact Context.load_congr rfl (hget 34 17 (by decide) (by decide)) fun j hj hlt =>
    h.words j (by omega) hlt

theorem nsecCtx_context : c.nsRegs.nsecCtx = c.context.nsecCtx := by
  unfold NsRegs.nsecCtx Context.nsecCtx nsRegs
  congr 1

theorem scr_bit {scr bit : Word} (hbit : scrNsFiqEa &&& bit = bit) :
    (scr &&& scrNsFiqEa = 0 → scr &&& bit = 0) := by
  intro h
  rw [← hbit, ← BitVec.and_assoc, h]
  exact BitVec.zero_and

/-- `SCR` of the other world. -/
theorem scr_cleared (scr : Word) : (scr &&& ~~~scrNsFiqEa) &&& scrNsFiqEa = 0 := by
  rw [BitVec.and_assoc, BitVec.and_comm (~~~scrNsFiqEa), BitVec.and_not_self]
  exact BitVec.and_zero

theorem scr_filled (scr : Word) : (scr ||| scrNsFiqEa) &&& scrNsFiqEa = scrNsFiqEa := by
  apply BitVec.eq_of_getLsbD_eq
  intro i _
  simp only [BitVec.getLsbD_and, BitVec.getLsbD_or]
  cases scrNsFiqEa.getLsbD i <;> simp

/-- The registers are loaded from the context of the normal world. -/
theorem context_loaded {M : Words} {cpu : Cpu} {f : Nat → Word} :
    Cpu.context { cpu with
      r := regsFrom M (wordAt ctx 57) 0 8 (regsFrom M (wordAt ctx 51) 8 5 f)
      banks := .load M (wordAt ctx 34)
      pc := M (wordAt ctx 65)
      cpsr := M (wordAt ctx 66) } = Context.load M ctx := by
  have hr : (fun i : Fin 13 => regsFrom M (wordAt ctx 57) 0 8 (regsFrom M (wordAt ctx 51) 8 5 f) i.val) =
      (Context.load M ctx).r := by
    funext i
    have hi := i.isLt
    unfold regsFrom Context.load
    dsimp only
    by_cases h8 : i.val < 8
    · rw [if_pos ⟨Nat.zero_le _, by omega⟩, if_pos h8, Words.wordAt_wordAt]
      rfl
    · rw [if_neg (by omega), if_pos (by omega), if_neg h8, Words.wordAt_wordAt]
  unfold Cpu.context
  dsimp only
  rw [hr]
  rfl

theorem refines_run (h : c.Executes ctx c') (hw : w.Holds ctx c) :
    ∃ w', Worlds.Step env vectors (w, s) .run (w', s') ∧ w'.Holds ctx c' := by
  obtain ⟨hbanks, hpsr, hload⟩ := h.context
  cases w with
  | normal n b psr =>
    obtain ⟨hscr, hsp, -, hb, hp⟩ := hw
    refine ⟨.normal c'.context b psr, .normal, ?_, h.monSp.trans hsp, rfl, hbanks.trans hb, hpsr.trans hp⟩
    rw [h.scr]
    exact hscr
  | secure n k =>
    obtain ⟨hscr, hsp, -, hn⟩ := hw
    refine ⟨.secure n c'.context, .secure, ?_, h.monSp.trans hsp, rfl, hload.trans hn⟩
    rw [h.scr]
    exact hscr

theorem refines_smc {x : Scratch} (hw : w.Holds ctx c) : ∃ w', Worlds.Step env vectors (w, s) .smc (w', s) ∧
    w'.Holds ctx (smSmcEntry vectors x (c.take (c.pc + 4))) := by
  cases w with
  | normal n b psr =>
    obtain ⟨hscr, hsp, rfl, rfl, rfl⟩ := hw
    refine ⟨_, .call x.r12, ?_⟩
    obtain ⟨hmodes, hhigh, hlow, hstate, -⟩ := @calledMem_get c.mem ctx (smcEntry vectors (c.r 0))
      ((List.range' 0 8).map c.r) ((List.range' 8 5).map c.r) c.banks.words [c.pc + 4, c.cpsr] x.stack
      rfl rfl rfl rfl x.fits
    rw [smSmcEntry_normal hscr hsp]
    refine ⟨scr_cleared _, rfl, ?_, Context.load_eq hmodes hhigh hlow hstate⟩
    have hr : (fun i : Fin 13 => if i.val = 12 then x.r12 else c.r i.val) =
        Function.update c.context.r 12 x.r12 := by
      funext i
      rw [Function.update_apply]
      by_cases hi : i = 12
      · rw [if_pos hi, hi]
        rfl
      · have h12 : i.val ≠ 12 := fun h => hi (Fin.ext h)
        rw [if_neg hi, if_neg h12]
        rfl
    rw [← hr]
    rfl
  | secure n k =>
    obtain ⟨hscr, hsp, rfl, rfl⟩ := hw
    obtain ⟨M, heq, hload, hbanks, hpsr⟩ := @smSmcEntry_secure c ctx vectors (c.pc + 4) x hscr hsp
    refine ⟨_, .leave, ?_⟩
    rw [heq, ← hload]
    exact ⟨scr_filled _, rfl, @context_loaded ctx M c c.r, hbanks, hpsr⟩

theorem refines_fiq (h : c.scr &&& 0x4 ≠ 0) (hw : w.Holds ctx c) :
    ∃ w', Worlds.Step env vectors (w, s) .fiq (w', s) ∧
      w'.Holds ctx (smFiqEntry vectors (c.take (c.pc + 4))) := by
  cases w with
  | normal n b psr =>
    obtain ⟨hscr, hsp, rfl, rfl, rfl⟩ := hw
    obtain ⟨M, heq, hload⟩ := @smFiqEntry_normal c ctx vectors c.pc hsp
    refine ⟨.secure c.context (smFiqEntry vectors (c.take (c.pc + 4))).context, ?_, ?_⟩
    · rw [heq]
      refine .fiq fun i hi => ?_
      exact (work_of_le hi).trans (Function.update_of_ne (by omega) _ _)
    · rw [heq]
      exact ⟨scr_cleared _, rfl, rfl, hload⟩
  | secure n k => exact absurd (scr_bit (by decide) hw.1) h

theorem refines_abort {p : Cp15} {x : Scratch} {v : Word} {ev : List Event} (h : c.scr &&& 0x8 ≠ 0)
    (hrun : Code.Runs (smDaEntry env p x v (c.take (c.pc + 8))) s ev c' s') (hw : w.Holds ctx c) :
    ∃ w', Worlds.Step env vectors (w, s) .abort (w', s') ∧ w'.Holds ctx c' := by
  cases w with
  | normal n b psr =>
    obtain ⟨hscr, hsp, rfl, rfl, rfl⟩ := hw
    rw [smDaEntry_eq hsp, nsecCtx_context] at hrun
    obtain ⟨w₁, e, s₁, w₂, hemu, hpure, rfl⟩ := Code.runs_bind.mp hrun
    obtain ⟨rfl, rfl, rfl⟩ := Code.runs_pure.mp hpure
    have hr : (fun i : Fin 13 => if i.val < 13 then e.r i.val else c.r i.val) = fun i => e.r i.val :=
      funext fun i => if_pos i.isLt
    have hctx : (c.aborted ctx x e).context = c.context.resume e := by
      unfold context aborted Context.resume
      dsimp only
      rw [hr]
    have hkept : ∀ j n, j + n ≤ 51 →
        (c.aborted ctx x e).mem.get (wordAt ctx j) n = c.mem.get (wordAt ctx j) n := by
      intro j n hj
      have hemulated := (@emulatedMem_get (trappedMem c.mem ctx ((List.range' 0 8).map c.r)
        ((List.range' 8 5).map c.r) c.banks.svcLr (c.pc + 4) c.cpsr) ctx x.stack e x.fits).2.2.2.2
      have htrapped := (@trappedMem_get c.mem ctx (c.pc + 4) c.cpsr c.banks.svcLr
        ((List.range' 0 8).map c.r) ((List.range' 8 5).map c.r) rfl rfl).2.2.2.2
      exact (hemulated j n (Or.inl hj)).trans (htrapped j n hj)
    refine ⟨_, .abort hemu, scr_filled _, hsp, hctx, ?_, ?_⟩
    · exact SmModeRegs.load_of_get (hkept 1 17 (by decide))
    · exact Words.apply_eq ((hkept 33 1 (by decide)).trans Words.get_one)
  | secure n k => exact absurd (scr_bit (by decide) hw.1) h

/-- A step of the code is one of the worlds. -/
theorem step_refines (h : MonStep env vectors ctx (c, s) a (c', s')) (hw : w.Holds ctx c) :
    ∃ w', Worlds.Step env vectors (w, s) a (w', s') ∧ w'.Holds ctx c' := by
  cases h with
  | run h => exact refines_run h hw
  | smc x => exact refines_smc hw
  | fiq h => exact refines_fiq h hw
  | abort h hrun => exact refines_abort h hrun hw

end Cpu

theorem runs_refine {env : Env} {vectors ctx : Word} {m m' : Cpu × Sys} {as : List MonAct} {w : Worlds}
    (hrun : Steps (MonStep env vectors ctx) m as m') (hw : w.Holds ctx m.1) :
    ∃ w', Steps (Worlds.Step env vectors) (w, m.2) as (w', m'.2) ∧ w'.Holds ctx m'.1 := by
  induction hrun generalizing w with
  | nil m => exact ⟨w, .nil _, hw⟩
  | cons first rest ih =>
    obtain ⟨w₁, hstep, hw₁⟩ := Cpu.step_refines first hw
    obtain ⟨w', hsteps, hw'⟩ := ih hw₁
    exact ⟨w', .cons hstep hsteps, hw'⟩

/-! ## Initialization -/

namespace Cpu

variable {c : Cpu} {ctx entry : Word}

theorem smInit_eq (hstack : c.r 0 = wordAt ctx 67) :
    c.smInit = { c with r := Function.update c.r 1 c.cpsr, monSp := wordAt ctx 34 } := by
  have hsp : wordAt ctx 67 - 132#32 = wordAt ctx 34 := Words.wordAt_sub (Nat.le_add_left 33 34)
  simp [smInit, movImm, cps, sub, get, set, mode, setSp, smCtxSize, smCtxNsec, hstack, hsp]

theorem initSecMon_load (hsp : c.monSp = wordAt ctx 34) :
    Context.load (c.initSecMon entry).mem ctx =
      { Context.load c.mem ctx with pc := entry, cpsr := CpuMode.svc.bits ||| 0x80 } := by
  have hmem : (c.initSecMon entry).mem =
      (c.mem.put (wordAt ctx 65) [entry]).put (wordAt ctx 66) [CpuMode.svc.bits ||| 0x80] := by
    unfold initSecMon
    rw [hsp, Words.wordAt_wordAt, Words.wordAt_wordAt]
    rfl
  have hbanks : SmModeRegs.load (c.initSecMon entry).mem (wordAt ctx 34) =
      SmModeRegs.load c.mem (wordAt ctx 34) := by
    rw [hmem]
    apply SmModeRegs.load_of_get
    rw [Words.get_put_apart (by simp) (by decide) (by decide) (by simp),
      Words.get_put_apart (by simp) (by decide) (by decide) (by simp)]
    rfl
  have hkept : ∀ j, j < 65 → (c.initSecMon entry).mem (wordAt ctx j) = c.mem (wordAt ctx j) := by
    intro j hj
    rw [hmem, Words.put_apart (by simp) (by omega) (by decide) (by omega),
      Words.put_apart (by simp) (by omega) (by decide) (by omega)]
  have hpc : (c.initSecMon entry).mem (wordAt ctx 65) = entry := by
    rw [hmem, Words.put_apart (by simp) (by decide) (by decide) (by decide)]
    exact Words.put_cons_self
  have hcpsr : (c.initSecMon entry).mem (wordAt ctx 66) = CpuMode.svc.bits ||| 0x80 := by
    rw [hmem]
    exact Words.put_cons_self
  unfold Context.load
  rw [hbanks, hpc, hcpsr]
  congr 1
  funext i
  have hi := i.isLt
  dsimp only
  split
  · exact hkept (57 + i.val) (by omega)
  · exact hkept (51 + (i.val - 8)) (by omega)

end Cpu

/-! ## Main results -/

/-- A processor with all registers zero, but for those that the monitor tells the worlds by. -/
def Cpu.zero (r0 monSp scr : Word) : Cpu where
  r := Function.update (fun _ => 0) 0 r0
  rFiq _ := 0
  banks := .load (fun _ => 0) 0
  monSp := monSp
  monLr := 0
  monSpsr := 0
  cpsr := CpuMode.svc.bits
  pc := 0x10000000
  scr := scr
  mem _ := 0

def Scratch.zero : Scratch := ⟨0, 0, 0, 0, [], by decide⟩

section Results

variable {env : Env} {vectors ctx entry : Word} {c c₁ c₂ c₃ c' : Cpu} {s s₁ s₂ s₃ s' : Sys}
  {as : List MonAct} {a : MonAct}

/-- Every run of the code, from its initialization on, is a run of two worlds with registers of their
own. -/
theorem monitor_refines (hscr : c.scr &&& Cpu.scrNsFiqEa = 0) (hstack : c.r 0 = wordAt ctx 67)
    (hboot : c.smInit.Executes ctx c₁)
    (hrun : Steps (MonStep env vectors ctx) (c₁.initSecMon entry, s) as (c', s')) :
    ∃ w', Steps (Worlds.Step env vectors) (.secure { Context.load c.mem ctx with
        pc := entry
        cpsr := CpuMode.svc.bits ||| 0x80 } c₁.context, s) as (w', s') ∧ w'.Holds ctx c' := by
  rw [Cpu.smInit_eq hstack] at hboot
  have hsp : c₁.monSp = wordAt ctx 34 := hboot.monSp
  refine runs_refine hrun ⟨?_, hsp, rfl, ?_⟩
  · exact (congrArg (· &&& Cpu.scrNsFiqEa) hboot.scr).trans hscr
  · exact (Cpu.initSecMon_load hsp).trans (by rw [hboot.context.2.2])

/-- The secure world leaves for the normal world, which calls it at once. -/
theorem monitor_refines_call : ∃ c' w', Steps (Worlds.Step imx6 0) (.secure
    { Context.load (Cpu.zero (wordAt 0 67) 0 0).mem 0 with
      pc := 0x80000000
      cpsr := CpuMode.svc.bits ||| 0x80 } (Cpu.zero (wordAt 0 67) 0 0).smInit.context, resetWithInstr 0)
    [.smc, .smc] (w', resetWithInstr 0) ∧ w'.Holds 0 c' :=
  ⟨_, monitor_refines rfl rfl ⟨rfl, rfl, fun _ _ _ => rfl⟩
    (.cons (.smc .zero) (.cons (.smc .zero) (.nil _)))⟩

/-- The normal world runs, and so the monitor saves into `sm_ctx.nsec` next. -/
def Cpu.InNormal (ctx : Word) (c : Cpu) : Prop :=
  c.scr &&& scrNsFiqEa = scrNsFiqEa ∧ c.monSp = wordAt ctx 67

/-- The secure world runs, and so the monitor saves into `sm_ctx.sec` next. -/
def Cpu.InSecure (ctx : Word) (c : Cpu) : Prop :=
  c.scr &&& scrNsFiqEa = 0 ∧ c.monSp = wordAt ctx 34

theorem Cpu.InNormal.holds (h : c.InNormal ctx) : (Worlds.normal c.context
    (SmModeRegs.load c.mem (wordAt ctx 1)) (c.mem (wordAt ctx 33))).Holds ctx c :=
  ⟨h.1, h.2, rfl, rfl, rfl⟩

theorem Cpu.InSecure.holds (h : c.InSecure ctx) :
    (Worlds.secure (Context.load c.mem ctx) c.context).Holds ctx c :=
  ⟨h.1, h.2, rfl, rfl⟩

/-- While the secure world runs, the normal world's registers are not touched. -/
theorem secure_runs {n k : Context} {w : Worlds} (has : ∀ b ∈ as, b = .run)
    (h : Steps (Worlds.Step env vectors) (.secure n k, s) as (w, s')) : ∃ k', w = .secure n k' := by
  induction as generalizing k s with
  | nil =>
    cases h
    exact ⟨k, rfl⟩
  | cons b as ih =>
    cases h with
    | cons first rest =>
      obtain rfl := has b List.mem_cons_self
      cases first with
      | secure => exact ih (fun b hb => has b (List.mem_cons_of_mem _ hb)) rest

/-- While the normal world runs, with its aborts, the secure world's registers are not touched. -/
theorem normal_runs {n : Context} {b : SmModeRegs} {psr : Word} {w : Worlds}
    (has : ∀ b ∈ as, b = .run ∨ b = .abort)
    (h : Steps (Worlds.Step env vectors) (.normal n b psr, s) as (w, s')) : ∃ n', w = .normal n' b psr := by
  induction as generalizing n s with
  | nil =>
    cases h
    exact ⟨n, rfl⟩
  | cons a as ih =>
    cases h with
    | cons first rest =>
      have hrest : ∀ b ∈ as, b = .run ∨ b = .abort := fun b hb => has b (List.mem_cons_of_mem _ hb)
      rcases has a List.mem_cons_self with rfl | rfl
      · cases first with
        | normal => exact ih hrest rest
      · cases first with
        | abort => exact ih hrest rest

/-- The normal world goes on where it left off: with all of its registers and modes, but for the
results of a call. -/
theorem normal_resumes (h : c.InNormal ctx) (ha : a = .smc ∨ a = .fiq)
    (hout : MonStep env vectors ctx (c, s) a (c₁, s₁)) (has : ∀ b ∈ as, b = .run)
    (hin : Steps (MonStep env vectors ctx) (c₁, s₁) as (c₂, s₂))
    (hback : MonStep env vectors ctx (c₂, s₂) .smc (c₃, s₃)) :
    c₃.InNormal ctx ∧ c₃.context =
      ({ c.context with pc := if a = .smc then c.pc + 4 else c.pc } : Context).results c₂.context := by
  obtain ⟨w₁, hstep, hw₁⟩ := Cpu.step_refines hout h.holds
  obtain ⟨w₂, hsteps, hw₂⟩ := runs_refine hin hw₁
  obtain ⟨w₃, hlast, hw₃⟩ := Cpu.step_refines hback hw₂
  have hleft : ∃ k, w₁ = .secure { c.context with pc := if a = .smc then c.pc + 4 else c.pc } k := by
    rcases ha with rfl | rfl
    · cases hstep
      exact ⟨_, rfl⟩
    · cases hstep
      exact ⟨_, rfl⟩
  obtain ⟨k, rfl⟩ := hleft
  obtain ⟨k', rfl⟩ := secure_runs has hsteps
  obtain ⟨-, -, rfl, -⟩ := hw₂
  cases hlast
  exact ⟨⟨hw₃.1, hw₃.2.1⟩, hw₃.2.2.1⟩

/-- A call that the secure world ends at once. -/
theorem normal_resumes_call : ∃ c₂ c₃ : Cpu, c₃.InNormal 0 ∧ c₃.context =
    ({ (Cpu.zero 1 (wordAt 0 67) Cpu.scrNsFiqEa).context with pc := 0x10000000 + 4 } : Context).results
      c₂.context := by
  have h := @normal_resumes imx6 0 0 (Cpu.zero 1 (wordAt 0 67) Cpu.scrNsFiqEa) _ _ _ (resetWithInstr 0) _
    _ _ [] .smc ⟨rfl, rfl⟩ (Or.inl rfl) (.smc .zero) (fun _ h => absurd h List.not_mem_nil) (.nil _)
    (.smc .zero)
  rw [if_pos rfl] at h
  exact ⟨_, _, h⟩

/-- The secure world is entered with the registers of its modes as it left them, at the entry for what
happened, and a call hands it `r0` to `r11`. -/
theorem secure_resumes (h : c.InSecure ctx) (hout : MonStep env vectors ctx (c, s) .smc (c₁, s₁))
    (has : ∀ b ∈ as, b = .run ∨ b = .abort) (hin : Steps (MonStep env vectors ctx) (c₁, s₁) as (c₂, s₂))
    (ha : a = .smc ∨ a = .fiq) (hback : MonStep env vectors ctx (c₂, s₂) a (c₃, s₃)) :
    c₃.InSecure ctx ∧ c₃.banks = c.banks ∧ c₃.cpsr = c.cpsr ∧
      c₃.pc = (if a = .smc then smcEntry vectors (c₂.r 0) else fiqEntry vectors) ∧
      (a = .smc → ∀ i < 12, c₃.r i = c₂.r i) := by
  obtain ⟨w₁, hstep, hw₁⟩ := Cpu.step_refines hout h.holds
  obtain ⟨w₂, hsteps, hw₂⟩ := runs_refine hin hw₁
  obtain ⟨w₃, hlast, hw₃⟩ := Cpu.step_refines hback hw₂
  cases hstep
  obtain ⟨n, rfl⟩ := normal_runs has hsteps
  obtain ⟨-, -, rfl, -, -⟩ := hw₂
  rcases ha with rfl | rfl
  · cases hlast
    obtain ⟨hscr, hsp, hctx, -⟩ := hw₃
    refine ⟨⟨hscr, hsp⟩, congrArg Context.banks hctx, congrArg Context.cpsr hctx, congrArg Context.pc hctx,
      fun _ i hi => ?_⟩
    have hr := congrArg (fun k : Context => k.r ⟨i, by omega⟩) hctx
    refine hr.trans (Function.update_of_ne (fun heq => ?_) _ _)
    have hval := congrArg Fin.val heq
    exact absurd hval (Nat.ne_of_lt hi)
  · cases hlast
    obtain ⟨hscr, hsp, hctx, -⟩ := hw₃
    exact ⟨⟨hscr, hsp⟩, congrArg Context.banks hctx, congrArg Context.cpsr hctx, congrArg Context.pc hctx,
      fun h => absurd h (by decide)⟩

/-- The secure world leaves, and then gets an FIQ. -/
theorem secure_resumes_fiq : ∃ c₃ : Cpu, c₃.InSecure 0 ∧
    c₃.banks = (Cpu.zero 1 (wordAt 0 34) 0).banks ∧ c₃.pc = fiqEntry 0 := by
  have hfiq : (Cpu.smSmcEntry 0 .zero ((Cpu.zero 1 (wordAt 0 34) 0).take (0x10000000 + 4))).scr &&& 0x4 ≠
      0 := by
    obtain ⟨M, heq, -⟩ := @Cpu.smSmcEntry_secure (Cpu.zero 1 (wordAt 0 34) 0) 0 0 (0x10000000 + 4) .zero
      rfl rfl
    rw [heq]
    exact (by decide : ((0 : Word) ||| Cpu.scrNsFiqEa) &&& 0x4 ≠ 0)
  have h := @secure_resumes imx6 0 0 (Cpu.zero 1 (wordAt 0 34) 0) _ _ _ (resetWithInstr 0) _ _ _ [] .fiq
    ⟨rfl, rfl⟩ (.smc .zero) (fun _ h => absurd h List.not_mem_nil) (.nil _) (Or.inr rfl) (.fiq hfiq)
  exact ⟨_, h.1, h.2.1, h.2.2.2.1⟩

end Results

end SeCloak
