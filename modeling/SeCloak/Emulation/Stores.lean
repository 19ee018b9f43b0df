import SeCloak.Emulation.HandleProps

/-!
# What an emulated store changes

The checks before a store change nothing but the ports that acknowledge an interrupt with it, and a
store that is made was permitted by every region that covers its address. The store itself is a
sequence of bytes, each of which goes to one place.
-/

namespace SeCloak
open Misc

/-! ## Checks -/

/-- The store is an acknowledgement to the port: it starts at `ISR`, and it names only interrupts
that were passed to the non-secure world. -/
def Port.AcksAt (hw : HwData) (p : Port) (address value : Word) : Prop :=
  address - p.pbase = hw.isrReg ∧ value &&& p.passedIrqMask = value

/-- The changes of checks for a store of `value` at `address`: some ports acknowledge it. -/
structure Acked (address value : Word) (s s' : Sys) : Prop where
  rest : s' = { s with gpio := { s.gpio with port := s'.gpio.port } }
  port : ∀ n, s'.gpio.port n = s.gpio.port n ∨
    ∃ ty p, s.gpio.hwtype = some ty ∧ s.gpio.port n = some p ∧
      p.AcksAt (hwData ty) address value ∧ s'.gpio.port n = some (p.ackPassed value)

theorem Port.ackPassed_ackPassed (p : Port) (value : Word) :
    (p.ackPassed value).ackPassed value = p.ackPassed value := by
  unfold Port.ackPassed
  simp [BitVec.and_assoc, BitVec.or_assoc]

namespace Acked

variable {address value : Word} {s s' s'' : Sys}

theorem refl (address value : Word) (s : Sys) : Acked address value s s :=
  ⟨rfl, fun _ => Or.inl rfl⟩

theorem trans (h : Acked address value s s') (h' : Acked address value s' s'') :
    Acked address value s s'' := by
  have hty : s'.gpio.hwtype = s.gpio.hwtype := by rw [h.rest]
  refine ⟨?_, fun n => ?_⟩
  · rw [h'.rest, h.rest]
  · rcases h'.port n with hn | ⟨ty, q, hty', hq, hat, hn⟩
    · rw [hn]
      exact h.port n
    · rcases h.port n with hm | ⟨ty', p, hp, hpn, hat', hm⟩
      · exact Or.inr ⟨ty, q, hty ▸ hty', hm ▸ hq, hat, hn⟩
      · -- the port acknowledges what it has acknowledged already
        rw [hm] at hq
        obtain rfl := Option.some.inj hq
        rw [p.ackPassed_ackPassed value] at hn
        exact Or.inr ⟨ty', p, hp, hpn, hat', hn⟩

theorem fixed (h : Acked address value s s') (n : Nat) :
    (s'.gpio.port n).map Port.fixed = (s.gpio.port n).map Port.fixed := by
  rcases h.port n with hn | ⟨ty, p, -, hp, -, hn⟩
  · rw [hn]
  · rw [hn, hp]
    rfl

end Acked

theorem emuCheck_ack_at {hw : HwData} {p : Port} {offset value : Word} {state : EmuState}
    (h : (p.emuCheck hw offset state value).ack = true) :
    offset = hw.isrReg ∧ value &&& p.passedIrqMask = value := by
  obtain rfl := emuCheck_ack h
  unfold Port.emuCheck at h
  simp only [hideSecured, keepSecured] at h
  split_ifs at h with hdr hgdir hisr hsec hpass
  exact ⟨hisr, hpass⟩

theorem gpioEmuCheck_acked {r : Region} {address value : Word} {state : EmuState}
    {res : Bool × Word} {s s' : Sys} {w : List Event}
    (h : Code.Runs (gpioEmuCheck r address state value) s w res s') :
    Acked address value s s' := by
  rw [gpioEmuCheck, Code.runs_get_bind] at h
  cases hty : s.gpio.hwtype with
  | none => simp [hty] at h
  | some ty =>
    simp only [hty] at h
    cases hport : gpioPortFromAddress s.gpio r.base with
    | none =>
      simp only [hport] at h
      rw [Code.runs_require_bind, Code.runs_pure] at h
      obtain ⟨-, -, -, rfl⟩ := h
      exact .refl _ _ _
    | some np =>
      obtain ⟨n, p⟩ := np
      obtain ⟨hpn, hbase⟩ := gpioPortFromAddress_some hport
      simp only [hport] at h
      obtain ⟨w₁, _, s₁, w₂, h₁, h₂, rfl⟩ := Code.runs_bind.mp h
      obtain ⟨-, -, rfl⟩ := Code.runs_pure.mp h₂
      rcases Code.runs_runIf.mp h₁ with ⟨hack, h₁⟩ | ⟨-, -, rfl⟩
      · obtain ⟨w₃, _, s₃, w₄, h₃, h₄, rfl⟩ := Code.runs_bind.mp h₁
        obtain ⟨-, q, hq, rfl⟩ := modifyPort_runs h₃
        obtain ⟨-, rfl⟩ := Code.runs_emit.mp h₄
        obtain rfl : p = q := Option.some.inj (hpn.symm.trans hq)
        obtain ⟨hisr, hpass⟩ := emuCheck_ack_at hack
        refine ⟨rfl, fun m => ?_⟩
        by_cases hm : m = n
        · subst hm
          refine Or.inr ⟨ty, p, hty, hpn, ⟨?_, hpass⟩, Function.update_self _ _ _⟩
          rw [hbase]
          exact hisr
        · exact Or.inl (Function.update_of_ne hm _ _)
      · exact .refl _ _ _

theorem runCheck_acked {r : Region} {address value : Word} {state : EmuState} {res : Bool × Word}
    {s s' : Sys} {w : List Event} (h : Code.Runs (r.runCheck address state value) s w res s') :
    Acked address value s s' := by
  unfold Region.runCheck at h
  cases hc : r.check with
  | gpio =>
    simp only [hc] at h
    exact gpioEmuCheck_acked h
  | allowAll | denyAll | fb =>
    simp only [hc] at h
    obtain ⟨-, -, rfl⟩ := Code.runs_pure.mp h
    exact .refl _ _ _

/-- The check of a store: it acknowledges at most, and it allows only what every region that covers
the address permitted when it was asked. -/
theorem emuCheckFrom_acked {address value value' : Word} {rs : List Region} {ok : Bool}
    {s s' : Sys} {w : List Event}
    (h : Code.Runs (emuCheckFrom address .write rs value) s w (ok, value') s') :
    Acked address value s s' ∧ (ok = true → ∀ r ∈ rs, r.covers address →
      ∃ u, Acked address value s u ∧ r.permits u address .write value = true) := by
  induction rs generalizing s w ok value' with
  | nil =>
    obtain ⟨-, -, rfl⟩ := Code.runs_pure.mp h
    refine ⟨.refl _ _ _, fun _ r hr => ?_⟩
    cases hr
  | cons r rs ih =>
    rw [emuCheckFrom, Code.runs_ite] at h
    by_cases hr : r.covers address
    · rw [if_pos hr] at h
      obtain ⟨w₁, ⟨ok₁, v⟩, s₁, v₁, h₁, k₁, -⟩ := Code.runs_bind.mp h
      obtain ⟨w₂, ⟨ok₂, v'⟩, s₂, v₂, h₂, k₂, -⟩ := Code.runs_bind.mp k₁
      obtain ⟨-, hv, rfl⟩ := Code.runs_pure.mp k₂
      obtain ⟨rfl, -⟩ := Prod.mk.inj hv
      have hack := runCheck_acked h₁
      obtain ⟨hok₁, hval, -⟩ := runCheck_runs h₁
      rw [hval rfl] at h₂
      obtain ⟨hrest, hperm⟩ := ih h₂
      refine ⟨hack.trans hrest, fun hok q hq hcov => ?_⟩
      rw [Bool.and_eq_true] at hok
      rcases List.mem_cons.mp hq with rfl | hq
      · exact ⟨s, .refl _ _ _, hok₁.symm.trans hok.1⟩
      · obtain ⟨u, hu, hpu⟩ := hperm hok.2 q hq hcov
        exact ⟨u, hack.trans hu, hpu⟩
    · rw [if_neg hr] at h
      obtain ⟨hack, hperm⟩ := ih h
      refine ⟨hack, fun hok q hq hcov => ?_⟩
      rcases List.mem_cons.mp hq with rfl | hq
      · exact absurd hcov hr
      · exact hperm hok q hq hcov

/-! ## Widths -/

/-- An access has one, two or four bytes, and a load that is signed has at most two. -/
def EmuOp.Narrow : EmuOp → Prop
  | .load size sign => (size = 1 ∨ size = 2 ∨ size = 4) ∧ (sign = true → size ≤ 2)
  | .store size => size = 1 ∨ size = 2 ∨ size = 4

theorem emuDecode_narrow {instr : Word} {op : EmuOp} (h : emuDecode instr = some op) :
    op.Narrow := by
  unfold emuDecode at h
  dsimp only at h
  split_ifs at h <;> cases h <;> simp [EmuOp.Narrow]

theorem emuAccepts_narrow {env : Env} {s : Sys} {status pa ia : Word} {rt : Rt} {op : EmuOp}
    (h : emuAccepts env s status pa ia = some (rt, op)) : op.Narrow := by
  unfold emuAccepts at h
  split at h
  · dsimp only at h
    cases hop : emuDecode (s.load env (env.instr.access ia 4)) with
    | none => simp [hop] at h
    | some op' =>
      cases hrt : emuRt (s.load env (env.instr.access ia 4)) with
      | none => simp [hrt] at h
      | some rt' =>
        simp only [hop, hrt, Option.some.injEq, Prod.mk.injEq] at h
        rw [← h.2]
        exact emuDecode_narrow hop
  · cases h

/-! ## Lanes -/

theorem getLsbD_laneBits {lane : Nat} (hlane : lane < 4) (b : Byte) (j : Nat) :
    (laneBits lane b).getLsbD j = (decide (j / 8 = lane) && b.getLsbD (j % 8)) := by
  unfold laneBits
  simp only [BitVec.getLsbD_shiftLeft, BitVec.getLsbD_setWidth]
  by_cases hj : j / 8 = lane
  · have hlow : 8 * lane ≤ j := by omega
    have hmod : j - 8 * lane = j % 8 := by omega
    have hlt : j < 32 := by omega
    have hlt' : j % 8 < 32 := by omega
    simp [hj, hmod, hlt, hlt', Nat.not_lt.mpr hlow]
  · by_cases hlow : j < 8 * lane
    · simp [hj, hlow]
    · have hge : 8 ≤ j - 8 * lane := by omega
      simp [hj, BitVec.getLsbD_of_ge _ _ hge]

theorem getLsbD_setLane {lane : Nat} (hlane : lane < 4) (w : Word) (b : Byte) (j : Nat) :
    (setLane w lane b).getLsbD j = if j / 8 = lane then b.getLsbD (j % 8) else w.getLsbD j := by
  have hone : (0xFF : Byte).getLsbD (j % 8) = true := by
    have hlt : j % 8 < 8 := Nat.mod_lt _ (by decide)
    generalize j % 8 = k at hlt
    revert k
    decide
  rw [setLane, getLsbD_maskWrite, getLsbD_laneBits hlane, getLsbD_laneBits hlane, hone]
  by_cases hj : j / 8 = lane
  · simp [hj]
  · simp [hj]

theorem getLsbD_getLane (w : Word) (lane : Nat) {k : Nat} (hk : k < 8) :
    (getLane w lane).getLsbD k = w.getLsbD (8 * lane + k) := by
  simp [getLane, hk]

/-- Put a byte of `value` into the same byte of `w`. -/
theorem getLsbD_setLane_getLane {lane : Nat} (hlane : lane < 4) (w value : Word) (j : Nat) :
    (setLane w lane (getLane value lane)).getLsbD j =
      if j / 8 = lane then value.getLsbD j else w.getLsbD j := by
  rw [getLsbD_setLane hlane, getLsbD_getLane _ _ (Nat.mod_lt _ (by decide))]
  split
  · rename_i hj
    congr 1
    omega
  · rfl

/-! ## Bytes -/

/-- Neither a register of a port nor a word of CPMEM. -/
def Place.offBlocks : Place → Prop
  | .gpio _ _ _ | .cpmem _ _ => False
  | _ => True

theorem gicdPlace_offBlocks {o : Nat} {p : Place} (h : gicdPlace o = some p) : p.offBlocks := by
  unfold gicdPlace at h
  split_ifs at h <;> cases h <;> trivial

/-- A register of a port is where the port has it. -/
theorem gpioPlace_eq {g : Gpio} {pa : Word} {p : Place} (h : gpioPlace g pa = some p) :
    ∃ n q, g.port n = some q ∧ (pa - q.pbase).toNat < 0x40 ∧
      p = .gpio n (BitVec.ofNat 32 ((pa - q.pbase).toNat / 4 * 4)) ((pa - q.pbase).toNat % 4) := by
  obtain ⟨n, -, hn⟩ := List.exists_of_findSome?_eq_some h
  cases hq : g.port n with
  | none => simp [hq] at hn
  | some q =>
    simp only [hq] at hn
    split_ifs at hn with ho
    exact ⟨n, q, hq, ho, (Option.some.inj hn).symm⟩

/-- Where a byte address can lead. -/
theorem place_cases (env : Env) (s : Sys) (pa : Word) :
    (s.place env pa).offBlocks ∨
      (∃ n q, s.gpio.port n = some q ∧ (pa - q.pbase).toNat < 0x40 ∧ s.place env pa =
        .gpio n (BitVec.ofNat 32 ((pa - q.pbase).toNat / 4 * 4)) ((pa - q.pbase).toNat % 4)) ∨
      s.place env pa = .cpmem ((pa - (s.fb.basePaddr + ipuCpmemOffset)).toNat / 4)
        ((pa - (s.fb.basePaddr + ipuCpmemOffset)).toNat % 4) := by
  unfold Sys.place
  dsimp only
  by_cases hcsl : (pa - csuBase).toNat < 0xA0
  · rw [if_pos hcsl]
    exact Or.inl trivial
  rw [if_neg hcsl]
  by_cases hsa : 0x218 ≤ (pa - csuBase).toNat ∧ (pa - csuBase).toNat < 0x21C
  · rw [if_pos hsa]
    exact Or.inl trivial
  rw [if_neg hsa]
  cases hgic : gicdPlace (pa - env.gicd).toNat with
  | some p => exact Or.inl (gicdPlace_offBlocks hgic)
  | none =>
    cases hgpio : gpioPlace s.gpio pa with
    | some p =>
      obtain ⟨n, q, hq, ho, hp⟩ := gpioPlace_eq hgpio
      exact Or.inr (Or.inl ⟨n, q, hq, ho, hp⟩)
    | none =>
      dsimp only
      split_ifs
      · exact Or.inr (Or.inr rfl)
      · exact Or.inl trivial

theorem writeGpio_fb (s : Sys) (n : Nat) (reg : Word) (lane : Nat) (b : Byte) :
    (s.writeGpio n reg lane b).fb = s.fb := by
  unfold Sys.writeGpio
  split <;> rfl

/-- A byte elsewhere leaves the ports and the CPMEM alone. -/
theorem writeByte_offBlocks {env : Env} {s : Sys} {pa : Word} {b : Byte}
    (h : (s.place env pa).offBlocks) :
    (s.writeByte env pa b).gpio = s.gpio ∧ (s.writeByte env pa b).fb = s.fb := by
  unfold Sys.writeByte
  generalize s.place env pa = p at h
  cases p with
  | gpio n reg lane => exact absurd h id
  | cpmem i lane => exact absurd h id
  | csl n lane => exact ⟨rfl, rfl⟩
  | sa lane => exact ⟨rfl, rfl⟩
  | gicd bank n lane => exact ⟨rfl, rfl⟩
  | ipriorityr it => exact ⟨rfl, rfl⟩
  | itargetsr n lane => exact ⟨rfl, rfl⟩
  | plain => exact ⟨rfl, rfl⟩

/-- A byte that is not in a word of CPMEM leaves the word alone. -/
theorem writeByte_cpmem {env : Env} {s : Sys} {pa : Word} {b : Byte} {i : Nat}
    (h : (pa - (s.fb.basePaddr + ipuCpmemOffset)).toNat / 4 ≠ i) :
    (s.writeByte env pa b).fb.cpmem i = s.fb.cpmem i := by
  rcases place_cases env s pa with hp | ⟨n, q, -, -, hp⟩ | hp
  · rw [(writeByte_offBlocks hp).2]
  · unfold Sys.writeByte
    rw [hp]
    exact congrArg (fun fb => fb.cpmem i) (writeGpio_fb s _ _ _ _)
  · unfold Sys.writeByte
    rw [hp]
    exact Function.update_of_ne (Ne.symm h) _ _

/-- The offset of a byte of an access in a block. -/
theorem byte_offset {a : Access} {base : Word} {i : Nat}
    (h : (a.pa - base).toNat + i < 2 ^ 32) :
    (a.byte i - base).toNat = (a.pa - base).toNat + i := by
  have hsub : a.byte i - base = a.pa - base + BitVec.ofNat 32 i := by
    unfold Access.byte
    bv_omega
  rw [hsub, BitVec.toNat_add, BitVec.toNat_ofNat]
  omega

/-- The port after a byte was stored at an offset of its block. -/
def Port.storedAt (hw : HwData) (p : Port) (o : Nat) (b : Byte) : Port :=
  { p with regs := p.regs.storeByte hw (BitVec.ofNat 32 (o / 4 * 4)) (o % 4) b }

/-- A byte changes a port only at the offset it has in the block of that port. -/
theorem writeByte_port (env : Env) (s : Sys) (pa : Word) (b : Byte) (n : Nat) :
    (s.writeByte env pa b).gpio.port n = s.gpio.port n ∨
      ∃ ty p, s.gpio.hwtype = some ty ∧ s.gpio.port n = some p ∧ (pa - p.pbase).toNat < 0x40 ∧
        (s.writeByte env pa b).gpio.port n =
          some (p.storedAt (hwData ty) (pa - p.pbase).toNat b) := by
  rcases place_cases env s pa with hp | ⟨m, q, hq, ho, hp⟩ | hp
  · exact Or.inl (by rw [(writeByte_offBlocks hp).1])
  · unfold Sys.writeByte
    rw [hp]
    dsimp only
    unfold Sys.writeGpio
    rw [hq]
    cases hty : s.gpio.hwtype with
    | none => exact Or.inl rfl
    | some ty =>
      dsimp only
      by_cases hnm : n = m
      · subst hnm
        refine Or.inr ⟨ty, q, rfl, hq, ho, ?_⟩
        exact Function.update_self _ _ _
      · exact Or.inl (Function.update_of_ne hnm _ _)
  · unfold Sys.writeByte
    rw [hp]
    exact Or.inl rfl

end SeCloak
