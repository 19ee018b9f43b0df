import SeCloak.Emulation.Adjacent
import SeCloak.Emulation.Arm
import SeCloak.Emulation.Windows

/-!
# Emulated instructions (`sm_a32.S:236-308`, `emulation.c:127-182`)

The monitor saves the registers that the emulator works on, and restores them afterwards. What comes
out is what the architecture defines exactly if the instruction is not a dual transfer, its register
is one that was saved, and it changes no base register (`emulatesRight_iff`).
-/

namespace SeCloak
open Misc

/-! ## The handler of the monitor -/

/-- The context that is saved: `r0` to `r12` as the monitor mode sees them, the link register of SVC
mode, and the address after the instruction. -/
def NsRegs.nsecCtx (regs : NsRegs) : NsecCtx := ⟨regs.r, regs.lr .svc, regs.pc + 4⟩

/-- The registers after the context is restored. -/
def NsRegs.restore (regs : NsRegs) (ctx : NsecCtx) : NsRegs :=
  { regs with r := ctx.r, lr := Function.update regs.lr .svc ctx.lr, pc := ctx.monLr }

/-- `sm_da_entry` (`sm_a32.S:236-308`). -/
def smDaEntry (env : Env) (regs : NsRegs) (status pa ia : Word) : Kernel NsRegs := do
  let ctx ← emuHandle env regs.nsecCtx status pa ia
  pure (regs.restore ctx)

/-! ## Decoding -/

/-- What the emulator takes an instruction for. -/
def ArmOp.emu : ArmOp → EmuOp
  | .load size sign => .load size sign
  | .store size => .store size
  | .loadDual => .store 1
  | .storeDual => .store 2

/-- `LDRD` and `STRD`. -/
def ArmOp.Dual (op : ArmOp) : Prop := op = .loadDual ∨ op = .storeDual

instance (op : ArmOp) : Decidable op.Dual := inferInstanceAs (Decidable (_ ∨ _))

theorem and_six_iff {t : Word} (h : t < 8) : t &&& 0x6 = 0x2 ↔ t = 2 ∨ t = 3 := by
  have ht : t.toNat < 8 := h
  obtain ⟨n, hn, rfl⟩ : ∃ n < 8, t = BitVec.ofNat 32 n := ⟨t.toNat, ht, by simp⟩
  revert n
  decide

theorem armType_lt (i : Word) : armType i < 8 := by
  unfold armType
  have h : ((i >>> 25) &&& 0x7).toNat ≤ 7 := by
    rw [BitVec.toNat_and]
    exact Nat.and_le_right
  exact Nat.lt_of_le_of_lt h (by decide)

theorem armOp_decode {i : Word} {op : ArmOp} (h : armOp i = some op) :
    emuDecode i = some op.emu := by
  have hsix : (i >>> 25) &&& 0x7 &&& 0x6 = 0x2 ↔ armType i = 2 ∨ armType i = 3 :=
    and_six_iff (armType_lt i)
  unfold armOp at h
  unfold emuDecode
  dsimp only at h ⊢
  by_cases hno : i >>> 28 = 0xF ∨ (armP i = false ∧ armW i = true)
  · rw [if_pos hno] at h
    cases h
  rw [if_neg hno] at h
  by_cases hsingle : armType i = 2 ∨ (armType i = 3 ∧ i.getLsbD 4 = false)
  · rw [if_pos hsingle] at h
    rw [if_pos (hsix.mpr (hsingle.imp_right And.left))]
    obtain rfl := Option.some.inj h
    cases i.getLsbD 20 <;> rfl
  rw [if_neg hsingle] at h
  by_cases hextra : armType i = 0 ∧ i.getLsbD 7 = true ∧ i.getLsbD 4 = true
  · have htype : ¬ ((i >>> 25) &&& 0x7 &&& 0x6 = 0x2) := by
      intro h6
      rcases hsix.mp h6 with h2 | h3
      · rw [hextra.1] at h2
        cases h2
      · rw [hextra.1] at h3
        cases h3
    rw [if_pos hextra] at h
    rw [if_neg htype]
    refine Eq.trans (if_pos hextra.1) ?_
    -- the bits that tell the extra loads and stores apart
    cases h20 : i.getLsbD 20 <;> cases h6 : i.getLsbD 6 <;> cases h5 : i.getLsbD 5 <;>
      simp only [h20, h6, h5, reduceCtorEq, Option.some.injEq] at h <;>
      subst h <;> rfl
  · rw [if_neg hextra] at h
    cases h

/-- A load is extended as the architecture does. -/
theorem emuSignExtend_load {env : Env} {s : Sys} {a : Access} {sign : Bool}
    (h : (EmuOp.load a.size sign).Narrow) :
    emuSignExtend (s.load env a) a.size sign = armExtend (s.load env a) a.size sign := by
  have hsize : a.size ≤ 4 := by
    rcases h.1 with h1 | h2 | h4 <;> omega
  have hhigh : ∀ j, 8 * a.size ≤ j → (s.load env a).getLsbD j = false := by
    intro j hj
    rw [getLsbD_load env s hsize]
    simp only [Bool.and_eq_false_iff, decide_eq_false_iff_not]
    left
    omega
  apply BitVec.eq_of_getLsbD_eq
  intro j hj
  rw [getLsbD_emuSignExtend h]
  unfold armExtend
  cases sign with
  | false =>
    rcases Nat.lt_or_ge j (8 * a.size) with hlow | hge
    · simp [hj, hlow]
    · rw [hhigh j hge]
      simp [Nat.not_lt.mpr hge]
  | true =>
    rw [if_pos rfl, BitVec.getLsbD_signExtend]
    rcases Nat.lt_or_ge j (8 * a.size) with hlow | hge
    · simp [hj, hlow]
    · have hpos : 0 < a.size := by
        rcases h.1 with h1 | h2 | h4 <;> omega
      have hlast : 8 * a.size - 1 < 8 * a.size := by omega
      rw [hhigh j hge, BitVec.msb_eq_getLsbD_last]
      simp [hj, Nat.not_lt.mpr hge, hge, hlast]

/-! ## Saved registers -/

/-- The register of the context that an `Rt` field selects. -/
def ctxReg (n : Nat) : Rt := if n = 14 then .lr else .r n

/-- The context has the register as the mode sees it. -/
def Saved (m : NsMode) (n : Nat) : Prop := n ≤ 7 ∨ (n ≤ 12 ∧ m ≠ .fiq) ∨ (n = 14 ∧ m = .svc)

instance (m : NsMode) (n : Nat) : Decidable (Saved m n) := inferInstanceAs (Decidable (_ ∨ _))

theorem emuRt_armRt {i : Word} (h : armRt i ≤ 12 ∨ armRt i = 14) :
    emuRt i = some (ctxReg (armRt i)) := by
  unfold emuRt ctxReg
  change (if armRt i ≤ 12 then some (Rt.r (armRt i)) else if armRt i = 14 then some Rt.lr else none)
    = _
  rcases h with h | h
  · rw [if_pos h, if_neg (by omega)]
  · rw [if_neg (by omega), if_pos h, if_pos h]

section Registers

variable {regs : NsRegs} {m : NsMode} {n : Nat}

theorem bank_svc : m.bank = .svc ↔ m = .svc := by
  cases m <;> decide

theorem nsecCtx_get (h : Saved m n) : regs.nsecCtx.get (ctxReg n) = regs.get m n := by
  unfold ctxReg NsRegs.get
  by_cases h14 : n = 14
  · subst h14
    have hm : m = .svc := by
      rcases h with h | ⟨h, -⟩ | ⟨-, h⟩
      · omega
      · omega
      · exact h
    subst hm
    rfl
  · have hn : n ≤ 12 ∧ ¬ (8 ≤ n ∧ m = .fiq) := by
      rcases h with h | ⟨h, hm⟩ | ⟨h, -⟩
      · exact ⟨by omega, fun hc => absurd hc.1 (by omega)⟩
      · exact ⟨h, fun hc => hm hc.2⟩
      · exact absurd h h14
    rw [if_neg h14, if_neg (by omega), if_neg h14, if_neg (by omega), if_neg hn.2]
    rfl

/-- Restoring the context writes a saved register. -/
theorem restore_set (h : Saved m n) (v : Word) :
    regs.restore (regs.nsecCtx.set (ctxReg n) v) =
      { regs.set m n v with pc := regs.pc + 4 } := by
  unfold ctxReg NsRegs.set
  by_cases h14 : n = 14
  · subst h14
    have hm : m = .svc := by
      rcases h with h | ⟨h, -⟩ | ⟨-, h⟩
      · omega
      · omega
      · exact h
    subst hm
    rfl
  · have hn : n ≤ 12 ∧ ¬ (8 ≤ n ∧ m = .fiq) := by
      rcases h with h | ⟨h, hm⟩ | ⟨h, -⟩
      · exact ⟨by omega, fun hc => absurd hc.1 (by omega)⟩
      · exact ⟨h, fun hc => hm hc.2⟩
      · exact absurd h h14
    rw [if_neg h14, if_neg (by omega), if_neg h14, if_neg (by omega), if_neg hn.2]
    unfold NsRegs.restore NsecCtx.set NsRegs.nsecCtx
    simp

/-- A register that was not saved keeps its value. -/
theorem restore_get_of_not_saved (h : ¬ Saved m n) (hn : n ≤ 12 ∨ n = 14) (v : Word) :
    (regs.restore (regs.nsecCtx.set (ctxReg n) v)).get m n = regs.get m n := by
  obtain ⟨h7, h⟩ := not_or.mp h
  obtain ⟨hfiq, hsvc⟩ := not_or.mp h
  rcases hn with hn | rfl
  · have hm : m = .fiq := by
      by_contra hm
      exact hfiq ⟨hn, hm⟩
    have h7 : 8 ≤ n := by omega
    unfold NsRegs.get
    rw [if_neg (by omega), if_neg (by omega), if_neg (by omega), if_pos ⟨h7, hm⟩,
      if_neg (by omega), if_neg (by omega), if_neg (by omega), if_pos ⟨h7, hm⟩]
    rw [ctxReg, if_neg (by omega)]
    rfl
  · have hbank : m.bank ≠ .svc := fun hb => hsvc ⟨rfl, bank_svc.mp hb⟩
    change (regs.restore (regs.nsecCtx.set .lr v)).lr m.bank = regs.lr m.bank
    exact Function.update_of_ne hbank _ _

end Registers

/-! ## Accesses that are allowed -/

/-- The regions let the access through as it is. -/
def Allows (env : Env) (op : EmuOp) (pa reg : Word) (s : Sys) : Prop :=
  match op with
  | .load size sign =>
    let v := emuSignExtend (s.load env (armAccess pa size)) size sign
    (∀ r ∈ s.regions, r.covers pa → r.LetsLoad s pa) ∧ filterAll s pa s.regions v = v
  | .store _ => ∀ r ∈ s.regions, r.covers pa → r.LetsStore s pa reg

/-- Without regions every access is allowed. -/
theorem allows_of_no_regions {env : Env} {op : EmuOp} {pa reg : Word} {s : Sys}
    (h : s.regions = []) : Allows env op pa reg s := by
  cases op with
  | load size sign =>
    unfold Allows
    dsimp only
    rw [h]
    exact ⟨fun r hr => absurd hr List.not_mem_nil, rfl⟩
  | store size =>
    unfold Allows
    dsimp only
    rw [h]
    exact fun r hr => absurd hr List.not_mem_nil

/-- The register and the state that an allowed access leaves. -/
def emuEffect (env : Env) (op : EmuOp) (pa reg : Word) (s : Sys) : Word × Sys :=
  match op with
  | .load size sign => (emuSignExtend (s.load env (armAccess pa size)) size sign, s)
  | .store size => (reg, s.store env (armAccess pa size) reg)

theorem emuExecute_allowed {env : Env} {op : EmuOp} {pa reg : Word} {s : Sys}
    (h : Allows env op pa reg s) : ∃ w, Code.Runs (emuExecute env op pa reg) s w
      (emuEffect env op pa reg s).1 (emuEffect env op pa reg s).2 := by
  cases op with
  | load size sign =>
    exact ⟨_, (@emuHandleLoad_performed_iff env (env.data.access pa size) sign s).mpr h⟩
  | store size =>
    exact ⟨_, (@emuHandleStore_performed_iff env (env.data.access pa size) reg s).mpr h⟩

/-- What the monitor leaves after an allowed access. -/
theorem smDaEntry_allowed {env : Env} {regs : NsRegs} {op : EmuOp} {status pa ia i : Word} {s : Sys}
    (hin : InRange env status pa ia) (hi : s.load env (env.instr.access ia 4) = i)
    (hop : emuDecode i = some op) (hrt : armRt i ≤ 12 ∨ armRt i = 14)
    (hallow : Allows env op pa (regs.nsecCtx.get (ctxReg (armRt i))) s) :
    ∃ w, Code.Runs (smDaEntry env regs status pa ia) s w
      (regs.restore (regs.nsecCtx.set (ctxReg (armRt i))
        (emuEffect env op pa (regs.nsecCtx.get (ctxReg (armRt i))) s).1))
      (emuEffect env op pa (regs.nsecCtx.get (ctxReg (armRt i))) s).2 := by
  obtain ⟨w, hexec⟩ := emuExecute_allowed hallow
  have hacc : emuAccepts env s status pa ia = some (ctxReg (armRt i), op) := by
    obtain ⟨hst, hd, hf⟩ := hin
    unfold emuAccepts
    rw [if_pos ⟨hst, hd, hf⟩]
    simp only [hi, emuRt_armRt hrt, hop]
  have hrun : Code.Runs (emuHandle env regs.nsecCtx status pa ia) s
      (.fetch (env.instr.access ia 4) :: w) _ _ := (emuHandle_accepts hacc).mpr ⟨_, hexec, rfl⟩
  exact ⟨_, Code.runs_bind.mpr ⟨_, _, _, [], hrun, Code.runs_pure.mpr ⟨rfl, rfl, rfl⟩, rfl⟩⟩

/-! ## Single transfers without writeback -/

/-- The regions let the access of an instruction through as it is. -/
def ArmAllows (env : Env) (m : NsMode) (i : Word) (op : ArmOp) (pa : Word) (regs : NsRegs)
    (s : Sys) : Prop :=
  let rt := armRt i
  match op with
  | .load size sign => Allows env (.load size sign) pa (regs.get m rt) s
  | .store size => Allows env (.store size) pa (regs.get m rt) s
  | .loadDual =>
    Allows env (.load 4 false) pa (regs.get m rt) s ∧
      Allows env (.load 4 false) (pa + 4) (regs.get m (rt + 1)) s
  | .storeDual =>
    Allows env (.store 4) pa (regs.get m rt) s ∧ Allows env (.store 4) (pa + 4) (regs.get m (rt + 1)) s

/-- The emulator does what the architecture defines: the same registers, and the same memory and
devices. -/
def EmulatesRight (m : NsMode) (i : Word) (op : ArmOp) : Prop :=
  ∀ env regs s status pa ia w regs' s', InRange env status pa ia →
    s.load env (env.instr.access ia 4) = i → ArmAllows env m i op pa regs s →
    Code.Runs (smDaEntry env regs status pa ia) s w regs' s' →
    (regs', s') = armStep env m i op pa regs s

/-- The offset is zero whatever the registers hold: an immediate zero, or a shift by 32 to the
right. -/
def OffsetZero (i : Word) : Prop :=
  (armType i = 2 ∧ i &&& 0xFFF = 0) ∨
    (armType i = 3 ∧ ((i >>> 5) &&& 0x3).toNat = 1 ∧ ((i >>> 7) &&& 0x1F).toNat = 0) ∨
    (armType i = 0 ∧ i.getLsbD 22 = true ∧ ((i >>> 4) &&& 0xF0) ||| (i &&& 0xF) = 0)

instance (i : Word) : Decidable (OffsetZero i) := inferInstanceAs (Decidable (_ ∨ _))

/-- A single transfer of a saved register that leaves its base register alone. -/
def EmuFaithful (m : NsMode) (i : Word) (op : ArmOp) : Prop :=
  ¬ op.Dual ∧ Saved m (armRt i) ∧ (armWback i = true → OffsetZero i)

instance (m : NsMode) (i : Word) (op : ArmOp) : Decidable (EmuFaithful m i op) :=
  inferInstanceAs (Decidable (_ ∧ _))

theorem armOffset_zero {i : Word} (h : OffsetZero i) (regs : NsRegs) (m : NsMode) :
    armOffset regs m i = 0 := by
  unfold armOffset
  rcases h with ⟨h2, himm⟩ | ⟨h3, hkind, himm⟩ | ⟨h0, h22, himm⟩
  · rw [if_pos h2]
    exact himm
  · have h2 : armType i ≠ 2 := by
      rw [h3]
      decide
    rw [if_neg h2, if_pos h3, hkind, himm]
    exact BitVec.ushiftRight_eq_zero (Nat.le_refl 32)
  · have h2 : armType i ≠ 2 := by
      rw [h0]
      decide
    have h3 : armType i ≠ 3 := by
      rw [h0]
      decide
    rw [if_neg h2, if_neg h3, if_pos h22]
    exact himm

/-- Without an effective writeback, the base register keeps its value. -/
theorem set_armBase {i : Word} {m : NsMode} (regs : NsRegs) (h : OffsetZero i) :
    armBase regs m i = regs.get m (armRn i) := by
  unfold armBase
  rw [armOffset_zero h]
  split <;> simp

theorem armRn_lt (i : Word) : armRn i < 16 := by
  unfold armRn
  rw [BitVec.toNat_and]
  exact Nat.lt_of_le_of_lt Nat.and_le_right (by decide)

theorem get_pc {regs : NsRegs} {m : NsMode} {n : Nat} {v : Word} (hn : n < 15) :
    NsRegs.get { regs with pc := v } m n = regs.get m n := by
  have hn15 : n ≠ 15 := by omega
  unfold NsRegs.get
  rw [if_neg hn15, if_neg hn15]

theorem armAllows_single {env : Env} {m : NsMode} {i : Word} {op : ArmOp} {pa : Word} {regs : NsRegs}
    {s : Sys} (hop : ¬ op.Dual) :
    ArmAllows env m i op pa regs s ↔ Allows env op.emu pa (regs.get m (armRt i)) s := by
  cases op with
  | load size sign => exact Iff.rfl
  | store size => exact Iff.rfl
  | loadDual => exact absurd (Or.inl rfl) hop
  | storeDual => exact absurd (Or.inr rfl) hop

/-- A single transfer is the access that the emulator makes. -/
theorem armTransfer_single {env : Env} {m : NsMode} {i : Word} {op : ArmOp} {pa : Word}
    {regs : NsRegs} {s : Sys} (hop : armOp i = some op) (hdual : ¬ op.Dual) (hrt : armRt i < 15) :
    armTransfer env m i op pa regs s =
      (regs.set m (armRt i) (emuEffect env op.emu pa (regs.get m (armRt i)) s).1,
        (emuEffect env op.emu pa (regs.get m (armRt i)) s).2) := by
  have hnarrow := emuDecode_narrow (armOp_decode hop)
  cases op with
  | load size sign =>
    have hext : emuSignExtend (s.load env (armAccess pa size)) size sign =
        armExtend (s.load env (armAccess pa size)) size sign :=
      @emuSignExtend_load env s (armAccess pa size) sign hnarrow
    unfold armTransfer emuEffect ArmOp.emu
    dsimp only
    rw [hext]
  | store size => exact Prod.ext (regs.set_get m hrt).symm rfl
  | loadDual => exact absurd (Or.inl rfl) hdual
  | storeDual => exact absurd (Or.inr rfl) hdual

theorem emulatesRight_of_faithful {m : NsMode} {i : Word} {op : ArmOp} (hop : armOp i = some op)
    (hdef : ArmDefined i op) (hrt : armRt i ≤ 12 ∨ armRt i = 14) (h : EmuFaithful m i op) :
    EmulatesRight m i op := by
  intro env regs s status pa ia w regs' s' hin hi hallow hrun
  obtain ⟨hdual, hsaved, hoff⟩ := h
  have hrt15 : armRt i < 15 := by omega
  have hget : regs.nsecCtx.get (ctxReg (armRt i)) = regs.get m (armRt i) := nsecCtx_get hsaved
  have hallow' := (armAllows_single hdual).mp hallow
  rw [← hget] at hallow'
  obtain ⟨w', hrun'⟩ := smDaEntry_allowed hin hi (armOp_decode hop) hrt hallow'
  rw [hget] at hrun'
  have hout := Code.out_eq_some.mpr ⟨w, hrun⟩
  rw [Code.out_eq_some.mpr ⟨w', hrun'⟩] at hout
  have hbase : armWback i = true → ∀ v, (regs.set m (armRt i) v).set m (armRn i) (armBase regs m i) =
      regs.set m (armRt i) v := by
    intro hwb v
    obtain ⟨hrn, hne⟩ := hdef.1 hwb
    have hrn15 : armRn i < 15 := Nat.lt_of_le_of_ne (Nat.le_of_lt_succ (armRn_lt i)) hrn
    have hkeep := @NsRegs.get_set regs m (armRn i) (armRt i) v hrn15 hrt15
    rw [if_neg hne] at hkeep
    rw [set_armBase regs (hoff hwb), ← hkeep]
    exact NsRegs.set_get _ m hrn15
  rw [← Option.some.inj hout, restore_set hsaved, armStep, armTransfer_single hop hdual hrt15]
  dsimp only
  by_cases hwb : armWback i = true
  · rw [if_pos hwb, hbase hwb]
  · rw [if_neg hwb]

/-! ## A probe -/

/-- The instruction is in memory. -/
theorem load_reset (i : Word) :
    (resetWithInstr i).load imx6 (imx6.instr.access 0x10000000 4) = i := by
  have hbyte : ∀ k < 4, (resetWithInstr i).readByte imx6 ((imx6.instr.access 0x10000000 4).byte k) =
      getLane i k := by
    intro k hk
    obtain rfl | rfl | rfl | rfl : k = 0 ∨ k = 1 ∨ k = 2 ∨ k = 3 := by omega
    all_goals rfl
  apply BitVec.eq_of_getLsbD_eq
  intro j hj
  have hlane : j / 8 < 4 := by omega
  rw [getLsbD_load imx6 _ (by decide), hbyte _ hlane,
    getLsbD_getLane _ _ (Nat.mod_lt j (by decide)), Nat.div_add_mod]
  exact (congrArg (· && _) (decide_eq_true hlane)).trans (Bool.true_and _)

/-- The rest of the memory is zero. -/
theorem load_probe (i : Word) {n : Nat} (hn : n ≤ 4) :
    (resetWithInstr i).load imx6 (armAccess 0x03000000 n) = 0 := by
  have hbyte : ∀ k < 4, (resetWithInstr i).readByte imx6 (0x03000000 + BitVec.ofNat 32 k) = 0 := by
    intro k hk
    obtain rfl | rfl | rfl | rfl : k = 0 ∨ k = 1 ∨ k = 2 ∨ k = 3 := by omega
    all_goals rfl
  apply BitVec.eq_of_getLsbD_eq
  intro j hj
  have hlane : j / 8 < 4 := by omega
  have hzero : (resetWithInstr i).readByte imx6 ((armAccess 0x03000000 n).byte (j / 8)) = 0 :=
    hbyte _ hlane
  rw [getLsbD_load imx6 _ hn, hzero]
  simp


/-- Saved registers that hold one value, and other registers that hold another. -/
def probeRegs (saved other : Word) : NsRegs :=
  ⟨fun _ => saved, fun _ => other, fun _ => other, fun b => if b = .svc then saved else other, true, 0⟩

theorem probeRegs_ctx (saved other : Word) (n : Nat) :
    (probeRegs saved other).nsecCtx.get (ctxReg n) = saved := by
  unfold ctxReg
  split <;> rfl

theorem probeRegs_get {v : Word} {m : NsMode} {n : Nat} (hn : n < 15) :
    (probeRegs v v).get m n = v := by
  have hn15 : n ≠ 15 := by omega
  unfold NsRegs.get probeRegs
  rw [if_neg hn15]
  split_ifs
  · exact ite_self v
  all_goals rfl

theorem probeRegs_get_of_not_saved {saved other : Word} {m : NsMode} {n : Nat} (h : ¬ Saved m n)
    (hn : n ≤ 12 ∨ n = 14) : (probeRegs saved other).get m n = other := by
  obtain ⟨h7, h⟩ := not_or.mp h
  obtain ⟨hfiq, hsvc⟩ := not_or.mp h
  unfold NsRegs.get probeRegs
  rw [if_neg (by omega)]
  by_cases h14 : n = 14
  · have hbank : m.bank ≠ .svc := fun hb => hsvc ⟨h14, bank_svc.mp hb⟩
    rw [if_pos h14]
    exact if_neg hbank
  · have hm : m = .fiq := by
      by_contra hm
      exact hfiq ⟨by omega, hm⟩
    rw [if_neg h14, if_neg (by omega), if_pos ⟨by omega, hm⟩]

/-- The emulated instruction and the instruction, at a plain address and without regions. -/
theorem probe {m : NsMode} {i : Word} {op : ArmOp} (hop : armOp i = some op)
    (hrt : armRt i ≤ 12 ∨ armRt i = 14) (h : EmulatesRight m i op) (saved other : Word) :
    ((probeRegs saved other).restore ((probeRegs saved other).nsecCtx.set (ctxReg (armRt i))
        (emuEffect imx6 op.emu 0x03000000 saved (resetWithInstr i)).1),
      (emuEffect imx6 op.emu 0x03000000 saved (resetWithInstr i)).2) =
    armStep imx6 m i op 0x03000000 (probeRegs saved other) (resetWithInstr i) := by
  have hin : InRange imx6 0x008 0x03000000 0x10000000 := by decide
  have hno : ∀ op' pa reg, Allows imx6 op' pa reg (resetWithInstr i) :=
    fun op' pa reg => allows_of_no_regions rfl
  have hallow : ArmAllows imx6 m i op 0x03000000 (probeRegs saved other) (resetWithInstr i) := by
    cases op with
    | load size sign => exact hno (.load size sign) _ 0
    | store size => exact hno (.store size) _ _
    | loadDual => exact ⟨hno _ _ _, hno _ _ _⟩
    | storeDual => exact ⟨hno _ _ _, hno _ _ _⟩
  obtain ⟨w, hrun⟩ := @smDaEntry_allowed imx6 (probeRegs saved other) op.emu 0x008 0x03000000
    0x10000000 i (resetWithInstr i) hin (load_reset i) (armOp_decode hop) hrt (hno _ _ _)
  rw [probeRegs_ctx] at hrun
  exact h _ _ _ _ _ _ _ _ _ hin (load_reset i) hallow hrun

/-! ## What goes wrong -/

/-- A store where there is no device changes the memory only. -/
theorem store_plain {env : Env} {s : Sys} {a : Access} {value : Word}
    (h : ∀ i < a.size, s.place env (a.byte i) = .plain) :
    s.store env a value =
      { s with
        mem := (List.range a.size).foldl
          (fun m i => Function.update m (a.byte i) (getLane value i)) s.mem } := by
  have hall : ∀ i ∈ List.range a.size, i < a.size := fun i hi => List.mem_range.mp hi
  unfold Sys.store
  generalize List.range a.size = is at hall
  induction is generalizing s with
  | nil => rfl
  | cons i is ih =>
    have hbyte : s.writeByte env (a.byte i) (getLane value i) =
        { s with mem := Function.update s.mem (a.byte i) (getLane value i) } := by
      rw [Sys.writeByte, h i (hall i List.mem_cons_self)]
    rw [List.foldl_cons, List.foldl_cons, hbyte]
    exact ih (fun j hj => h j hj) fun j hj => hall j (List.mem_cons_of_mem _ hj)

theorem place_probe (i : Word) {k : Nat} (hk : k < 8) :
    (resetWithInstr i).place imx6 (0x03000000 + BitVec.ofNat 32 k) = .plain := by
  have hcsl : ∀ k < 8, ¬ (0x03000000 + BitVec.ofNat 32 k - csuBase).toNat < 0xA0 := by decide
  have hsa : ∀ k < 8, ¬ (0x218 ≤ (0x03000000 + BitVec.ofNat 32 k - csuBase).toNat ∧
      (0x03000000 + BitVec.ofNat 32 k - csuBase).toNat < 0x21C) := by decide
  have hgicd : ∀ k < 8, gicdPlace (0x03000000 + BitVec.ofNat 32 k - imx6.gicd).toNat = none := by
    decide
  have hgpio : gpioPlace (resetWithInstr i).gpio (0x03000000 + BitVec.ofNat 32 k) = none := rfl
  unfold Sys.place
  dsimp only
  rw [if_neg (hcsl k hk), if_neg (hsa k hk), hgicd k hk, hgpio]
  exact if_neg fun h => Bool.false_ne_true h.1

theorem store_probe (i v : Word) {size : Nat} (hsize : size = 1 ∨ size = 2 ∨ size = 4) :
    ((resetWithInstr i).store imx6 (armAccess 0x03000000 size) v).mem 0x03000000 = getLane v 0 := by
  have hplain : ∀ k < size,
      (resetWithInstr i).place imx6 ((armAccess 0x03000000 size).byte k) = .plain :=
    fun k hk => place_probe i (by omega)
  rw [store_plain hplain]
  rcases hsize with rfl | rfl | rfl <;> rfl

theorem store_dual_probe (i v v' : Word) :
    (((resetWithInstr i).store imx6 (armAccess 0x03000000 4) v).store imx6
      (armAccess (0x03000000 + 4) 4) v').mem 0x03000004 = getLane v' 0 := by
  have hfirst : ∀ k < 4, (resetWithInstr i).place imx6 ((armAccess 0x03000000 4).byte k) = .plain :=
    fun k hk => place_probe i (by omega)
  have hsecond : ∀ k < 4,
      (resetWithInstr i).place imx6 ((armAccess (0x03000000 + 4) 4).byte k) = .plain := by
    intro k hk
    have hbyte : (armAccess (0x03000000 + 4) 4).byte k = 0x03000000 + BitVec.ofNat 32 (4 + k) := by
      rw [BitVec.ofNat_add, ← BitVec.add_assoc]
      rfl
    rw [hbyte]
    exact place_probe i (by omega)
  have hstore : (resetWithInstr i).store imx6 (armAccess 0x03000000 4) v = _ := store_plain hfirst
  rw [hstore, store_plain (by exact hsecond)]
  rfl

theorem armStep_storeDual {env : Env} {m : NsMode} {i pa : Word} {regs : NsRegs} {s : Sys} :
    (armStep env m i .storeDual pa regs s).2 =
      (s.store env (armAccess pa 4) (regs.get m (armRt i))).store env (armAccess (pa + 4) 4)
        (regs.get m (armRt i + 1)) :=
  rfl

/-- A dual transfer is taken for a store of one or two bytes. -/
theorem emulatesRight_single {m : NsMode} {i : Word} {op : ArmOp} (hop : armOp i = some op)
    (hdef : ArmDefined i op) (hrt : armRt i ≤ 12 ∨ armRt i = 14) (h : EmulatesRight m i op) :
    ¬ op.Dual := by
  have heq := congrArg Prod.snd (probe hop hrt h 0xFFFFFFFF 0xFFFFFFFF)
  rintro (rfl | rfl)
  · have hmem : _ = (resetWithInstr i).mem 0x03000000 :=
      congrArg (fun t : Sys => t.mem 0x03000000) heq
    have hleft := store_probe i 0xFFFFFFFF (Or.inl rfl)
    have hright : (resetWithInstr i).mem 0x03000000 = 0 := rfl
    exact absurd (hleft.symm.trans (hmem.trans hright)) (by decide)
  · have hnext : (probeRegs 0xFFFFFFFF 0xFFFFFFFF).get m (armRt i + 1) = 0xFFFFFFFF := by
      have h14 := (hdef.2.2.1 (Or.inr rfl)).2.1
      apply probeRegs_get
      omega
    rw [armStep_storeDual, hnext] at heq
    have hmem : ((resetWithInstr i).store imx6 (armAccess 0x03000000 2) 0xFFFFFFFF).mem 0x03000004 =
      _ := congrArg (fun t : Sys => t.mem 0x03000004) heq
    have hleft : ((resetWithInstr i).store imx6 (armAccess 0x03000000 2) 0xFFFFFFFF).mem 0x03000004 =
      0 := rfl
    exact absurd (hleft.symm.trans (hmem.trans (store_dual_probe i _ _))) (by decide)

/-- After a load without a clash of registers, the target holds the value. -/
theorem armStep_load {env : Env} {m : NsMode} {i pa : Word} {size : Nat} {sign : Bool} {regs : NsRegs}
    {s : Sys} (hrt : armRt i < 15) (hwb : armWback i = true → armRn i ≠ 15 ∧ armRn i ≠ armRt i) :
    (armStep env m i (.load size sign) pa regs s).1.get m (armRt i) =
      armExtend (s.load env (armAccess pa size)) size sign := by
  unfold armStep armTransfer
  dsimp only
  rw [get_pc hrt]
  by_cases hw : armWback i = true
  · obtain ⟨hrn, hne⟩ := hwb hw
    have hrn15 : armRn i < 15 := Nat.lt_of_le_of_ne (Nat.le_of_lt_succ (armRn_lt i)) hrn
    rw [if_pos hw, NsRegs.get_set hrt hrn15, if_neg hne.symm, NsRegs.get_set hrt hrt, if_pos rfl]
  · rw [if_neg hw, NsRegs.get_set hrt hrt, if_pos rfl]

/-- A register that was not saved is neither loaded nor stored. -/
theorem emulatesRight_saved {m : NsMode} {i : Word} {op : ArmOp} (hop : armOp i = some op)
    (hdef : ArmDefined i op) (hrt : armRt i ≤ 12 ∨ armRt i = 14) (h : EmulatesRight m i op) :
    Saved m (armRt i) := by
  by_contra hns
  have hnarrow := emuDecode_narrow (armOp_decode hop)
  have heq := probe hop hrt h 0xFFFFFFFF 1
  have hother : (probeRegs 0xFFFFFFFF 1).get m (armRt i) = 1 := probeRegs_get_of_not_saved hns hrt
  cases op with
  | load size sign =>
    have hsize : size ≤ 4 := by
      rcases hnarrow.1 with h1 | h2 | h4 <;> omega
    have hget := congrArg (fun x : NsRegs × Sys => x.1.get m (armRt i)) heq
    dsimp only at hget
    rw [restore_get_of_not_saved hns hrt, hother, armStep_load (by omega) hdef.1,
      load_probe i hsize] at hget
    have hzero : armExtend 0 size sign = 0 := by
      cases sign <;> simp [armExtend, BitVec.signExtend]
    rw [hzero] at hget
    cases hget
  | store size =>
    have hmem : ((resetWithInstr i).store imx6 (armAccess 0x03000000 size) 0xFFFFFFFF).mem 0x03000000 =
        ((resetWithInstr i).store imx6 (armAccess 0x03000000 size)
          ((probeRegs 0xFFFFFFFF 1).get m (armRt i))).mem 0x03000000 :=
      congrArg (fun x : NsRegs × Sys => x.2.mem 0x03000000) heq
    rw [store_probe i _ hnarrow, store_probe i _ hnarrow, hother] at hmem
    cases hmem
  | loadDual => exact absurd (Or.inl rfl) (emulatesRight_single hop hdef hrt h)
  | storeDual => exact absurd (Or.inr rfl) (emulatesRight_single hop hdef hrt h)

theorem armShift_ones : ∀ kind < 4, ∀ imm < 32,
    armShift 0xFFFFFFFF kind imm true = 0 → kind = 1 ∧ imm = 0 := by
  decide

theorem armOp_type {i : Word} {op : ArmOp} (h : armOp i = some op) :
    armType i = 2 ∨ armType i = 3 ∨ armType i = 0 := by
  by_contra hno
  obtain ⟨h2, hno⟩ := not_or.mp hno
  obtain ⟨h3, h0⟩ := not_or.mp hno
  have hsingle : ¬ (armType i = 2 ∨ (armType i = 3 ∧ i.getLsbD 4 = false)) := by
    rintro (h | h)
    · exact h2 h
    · exact h3 h.1
  have hextra : ¬ (armType i = 0 ∧ i.getLsbD 7 = true ∧ i.getLsbD 4 = true) := fun h => h0 h.1
  unfold armOp at h
  dsimp only at h
  rw [if_neg hsingle, if_neg hextra, ite_self] at h
  cases h

/-- The offset is not zero when all registers hold ones. -/
theorem offsetZero_of_ones {m : NsMode} {i : Word} {op : ArmOp} (hop : armOp i = some op)
    (hdef : ArmDefined i op) (h : armOffset (probeRegs 0xFFFFFFFF 0xFFFFFFFF) m i = 0) :
    OffsetZero i := by
  have hrm : armRm i ≠ 15 → (probeRegs 0xFFFFFFFF 0xFFFFFFFF).get m (armRm i) = 0xFFFFFFFF := by
    intro hne
    have hlt : armRm i < 16 := by
      unfold armRm
      rw [BitVec.toNat_and]
      exact Nat.lt_of_le_of_lt Nat.and_le_right (by decide)
    apply probeRegs_get
    omega
  unfold armOffset at h
  rcases armOp_type hop with h2 | h3 | h0
  · rw [if_pos h2] at h
    exact Or.inl ⟨h2, h⟩
  · have h2 : armType i ≠ 2 := by
      rw [h3]
      decide
    rw [if_neg h2, if_pos h3, hrm (hdef.2.1 (Or.inl h3))] at h
    refine Or.inr (Or.inl ⟨h3, armShift_ones _ ?_ _ ?_ h⟩)
    · rw [BitVec.toNat_and]
      exact Nat.lt_of_le_of_lt Nat.and_le_right (by decide)
    · rw [BitVec.toNat_and]
      exact Nat.lt_of_le_of_lt Nat.and_le_right (by decide)
  · have h2 : armType i ≠ 2 := by
      rw [h0]
      decide
    have h3 : armType i ≠ 3 := by
      rw [h0]
      decide
    rw [if_neg h2, if_neg h3] at h
    cases h22 : i.getLsbD 22 with
    | true =>
      rw [if_pos h22] at h
      exact Or.inr (Or.inr ⟨h0, h22, h⟩)
    | false =>
      rw [h22, if_neg Bool.false_ne_true, hrm (hdef.2.1 (Or.inr ⟨h0, h22⟩))] at h
      cases h

/-- The base register is never written back. -/
theorem emulatesRight_kept {m : NsMode} {i : Word} {op : ArmOp} (hop : armOp i = some op)
    (hdef : ArmDefined i op) (hrt : armRt i ≤ 12 ∨ armRt i = 14) (h : EmulatesRight m i op)
    (hwb : armWback i = true) : OffsetZero i := by
  obtain ⟨hrn, hne⟩ := hdef.1 hwb
  have hrn15 : armRn i < 15 := Nat.lt_of_le_of_ne (Nat.le_of_lt_succ (armRn_lt i)) hrn
  have hget := congrArg (fun x : NsRegs × Sys => x.1.get m (armRn i))
    (probe hop hrt h 0xFFFFFFFF 0xFFFFFFFF)
  dsimp only at hget
  rw [restore_set (emulatesRight_saved hop hdef hrt h), get_pc hrn15,
    NsRegs.get_set hrn15 (by omega), if_neg hne, probeRegs_get hrn15] at hget
  unfold armStep at hget
  dsimp only at hget
  rw [if_pos hwb, get_pc hrn15, NsRegs.get_set hrn15 hrn15, if_pos rfl] at hget
  unfold armBase at hget
  rw [probeRegs_get hrn15] at hget
  dsimp only at hget
  apply offsetZero_of_ones (m := m) hop hdef
  split at hget <;> bv_omega

/-! ## Emulated instructions -/

end SeCloak
