import SeCloak.Emulation.Security
import SeCloak.Emulation.Stores

/-!
# Stores to a GPIO port

The check of a port compares the whole source register with the register at the offset where the
store starts. A store that starts at a register and is not wider than it changes some bytes of that
register only, so whatever agrees with the source register on the secured bits keeps them
(`Mixed`). `secured_kept` says what such a store leaves of the secured pins.
-/

namespace SeCloak
open Misc

/-! ## A store to one register -/

/-- Every bit of `new` is that of `old` or that of `value`. -/
def Mixed (old value new : Word) : Prop :=
  ∀ j, new.getLsbD j = old.getLsbD j ∨ new.getLsbD j = value.getLsbD j

theorem Mixed.lane {old value new : Word} {lane : Nat} (h : Mixed old value new)
    (hlane : lane < 4) : Mixed old value (setLane new lane (getLane value lane)) := by
  intro j
  rw [getLsbD_setLane_getLane hlane]
  split
  · exact Or.inr rfl
  · exact h j

/-- Where the value agrees with the register, nothing changes. -/
theorem Mixed.bit {old value new : Word} (h : Mixed old value new) {j : Nat}
    (hj : old.getLsbD j = value.getLsbD j) : new.getLsbD j = old.getLsbD j := by
  rcases h j with ho | hv
  · exact ho
  · exact hv.trans hj.symm

/-- What a store of `value` at `off` leaves in the register at `reg`. -/
def StoredAt (off value reg old new : Word) : Prop := new = old ∨ (off = reg ∧ Mixed old value new)

theorem StoredAt.refl (off value reg old : Word) : StoredAt off value reg old old := Or.inl rfl

theorem StoredAt.lane {off value reg old new : Word} {lane : Nat}
    (h : StoredAt off value reg old new) (hlane : lane < 4) (hoff : off = reg) :
    StoredAt off value reg old (setLane new lane (getLane value lane)) := by
  refine Or.inr ⟨hoff, Mixed.lane ?_ hlane⟩
  rcases h with rfl | ⟨-, h⟩
  · exact fun j => Or.inl rfl
  · exact h

theorem StoredAt.bit {off value reg old new : Word} (h : StoredAt off value reg old new) {j : Nat}
    (hj : off = reg → old.getLsbD j = value.getLsbD j) : new.getLsbD j = old.getLsbD j := by
  rcases h with rfl | ⟨hoff, h⟩
  · rfl
  · exact h.bit (hj hoff)

/-! ## A store to a port -/

/-- What a store of `value` that starts at the register at `off` leaves of a port. -/
structure Port.Stored (hw : HwData) (off value : Word) (p q : Port) : Prop where
  fixed : q.fixed = p.fixed
  secureMask : q.secureMask = p.secureMask
  dr : StoredAt off value hw.drReg p.regs.dr q.regs.dr
  gdir : StoredAt off value hw.gdirReg p.regs.gdir q.regs.gdir
  icr1 : StoredAt off value hw.icr1Reg p.regs.icr1 q.regs.icr1
  icr2 : StoredAt off value hw.icr2Reg p.regs.icr2 q.regs.icr2
  imr : StoredAt off value hw.imrReg p.regs.imr q.regs.imr
  edgeSel : StoredAt off value (BitVec.ofInt 32 hw.edgeSelReg) p.regs.edgeSel q.regs.edgeSel

theorem Port.Stored.refl (hw : HwData) (off value : Word) (p : Port) :
    Port.Stored hw off value p p :=
  ⟨rfl, rfl, .refl _ _ _ _, .refl _ _ _ _, .refl _ _ _ _, .refl _ _ _ _, .refl _ _ _ _,
    .refl _ _ _ _⟩

/-- The register that a byte goes to. -/
theorem storeByte_cases (hw : HwData) (r : GpioRegs) (o : Word) (lane : Nat) (b : Byte) :
    (o = hw.drReg ∧ r.storeByte hw o lane b = { r with dr := setLane r.dr lane b }) ∨
      (o = hw.gdirReg ∧ r.storeByte hw o lane b = { r with gdir := setLane r.gdir lane b }) ∨
      (o = hw.icr1Reg ∧ r.storeByte hw o lane b = { r with icr1 := setLane r.icr1 lane b }) ∨
      (o = hw.icr2Reg ∧ r.storeByte hw o lane b = { r with icr2 := setLane r.icr2 lane b }) ∨
      (o = hw.imrReg ∧ r.storeByte hw o lane b = { r with imr := setLane r.imr lane b }) ∨
      (o = BitVec.ofInt 32 hw.edgeSelReg ∧
        r.storeByte hw o lane b = { r with edgeSel := setLane r.edgeSel lane b }) ∨
      ∃ isr, r.storeByte hw o lane b = { r with isr := isr } := by
  generalize hs : r.storeByte hw o lane b = q
  unfold GpioRegs.storeByte at hs
  split_ifs at hs with h₀ h₁ h₂ h₃ h₄ h₅ h₆ h₇
  · exact Or.inl ⟨h₀, hs.symm⟩
  · exact Or.inr (Or.inl ⟨h₁, hs.symm⟩)
  · exact Or.inr (Or.inr (Or.inr (Or.inr (Or.inr (Or.inr ⟨r.isr, hs.symm⟩)))))
  · exact Or.inr (Or.inr (Or.inl ⟨h₃, hs.symm⟩))
  · exact Or.inr (Or.inr (Or.inr (Or.inl ⟨h₄, hs.symm⟩)))
  · exact Or.inr (Or.inr (Or.inr (Or.inr (Or.inl ⟨h₅, hs.symm⟩))))
  · exact Or.inr (Or.inr (Or.inr (Or.inr (Or.inr (Or.inr ⟨_, hs.symm⟩)))))
  · exact Or.inr (Or.inr (Or.inr (Or.inr (Or.inr (Or.inl ⟨h₇, hs.symm⟩)))))
  · exact Or.inr (Or.inr (Or.inr (Or.inr (Or.inr (Or.inr ⟨r.isr, hs.symm⟩)))))

/-- A byte of a store that starts at a register stays in that register. -/
theorem Port.Stored.byte {hw : HwData} {off value : Word} {p q : Port}
    (h : Port.Stored hw off value p q) (halign : off.toNat % 4 = 0) {i : Nat} (hi : i < 4) :
    Port.Stored hw off value p (q.storedAt hw (off.toNat + i) (getLane value i)) := by
  have hreg : BitVec.ofNat 32 ((off.toNat + i) / 4 * 4) = off := by
    rw [show (off.toNat + i) / 4 * 4 = off.toNat by omega, BitVec.ofNat_toNat, BitVec.setWidth_eq]
  have hlane : (off.toNat + i) % 4 = i := by omega
  obtain ⟨hfix, hsec, hdr, hgdir, hicr1, hicr2, himr, hedge⟩ := h
  unfold Port.storedAt
  rw [hreg, hlane]
  rcases storeByte_cases hw q.regs off i (getLane value i) with ⟨ho, hs⟩ | ⟨ho, hs⟩ | ⟨ho, hs⟩ |
    ⟨ho, hs⟩ | ⟨ho, hs⟩ | ⟨ho, hs⟩ | ⟨isr, hs⟩ <;> rw [hs]
  · exact ⟨hfix, hsec, hdr.lane hi ho, hgdir, hicr1, hicr2, himr, hedge⟩
  · exact ⟨hfix, hsec, hdr, hgdir.lane hi ho, hicr1, hicr2, himr, hedge⟩
  · exact ⟨hfix, hsec, hdr, hgdir, hicr1.lane hi ho, hicr2, himr, hedge⟩
  · exact ⟨hfix, hsec, hdr, hgdir, hicr1, hicr2.lane hi ho, himr, hedge⟩
  · exact ⟨hfix, hsec, hdr, hgdir, hicr1, hicr2, himr.lane hi ho, hedge⟩
  · exact ⟨hfix, hsec, hdr, hgdir, hicr1, hicr2, himr, hedge.lane hi ho⟩
  · exact ⟨hfix, hsec, hdr, hgdir, hicr1, hicr2, himr, hedge⟩

/-- A whole store that starts at a register of the `n`-th port. -/
theorem store_stored {env : Env} {s : Sys} {a : Access} {value : Word} {ty : HwType} {n : Nat}
    {p : Port} (hty : s.gpio.hwtype = some ty) (hp : s.gpio.port n = some p) (hsize : a.size ≤ 4)
    (halign : (a.pa - p.pbase).toNat % 4 = 0) :
    ∃ q, (s.store env a value).gpio.port n = some q ∧
      Port.Stored (hwData ty) (a.pa - p.pbase) value p q := by
  refine (store_invariant (I := fun t => t.gpio.hwtype = some ty ∧ ∃ q, t.gpio.port n = some q ∧
    Port.Stored (hwData ty) (a.pa - p.pbase) value p q) (fun i hi t ht => ?_)
    ⟨hty, p, hp, .refl _ _ _ _⟩).2
  obtain ⟨htty, q, hq, hst⟩ := ht
  refine ⟨?_, ?_⟩
  · rw [(writeByte_busOnly env t (a.byte i) (getLane value i)).rest]
    exact htty
  · rcases writeByte_port env t (a.byte i) (getLane value i) n with
      hn | ⟨ty', q', hty', hq', -, hn⟩
    · exact ⟨q, hn.trans hq, hst⟩
    · obtain rfl : q' = q := Option.some.inj (hq'.symm.trans hq)
      obtain rfl : ty' = ty := Option.some.inj (hty'.symm.trans htty)
      have hbase : q'.pbase = p.pbase := congrArg (fun x => x.2.1) hst.fixed
      have hi4 : i < 4 := by omega
      have hlt := (a.pa - p.pbase).isLt
      rw [hbase, byte_offset (by omega)] at hn
      exact ⟨_, hn, hst.byte halign hi4⟩

/-! ## What the check allows -/

/-- What the check of a port demands of the value of a store at `off`. -/
structure Port.Allows (hw : HwData) (p : Port) (off value : Word) : Prop where
  dr : off = hw.drReg → p.regs.dr &&& p.secureMask = value &&& p.secureMask
  gdir : off = hw.gdirReg → p.regs.gdir &&& p.secureMask = value &&& p.secureMask
  imr : off = hw.imrReg → ~~~value &&& p.secureMask = 0
  edgeSel : off = BitVec.ofInt 32 hw.edgeSelReg →
    p.regs.edgeSel &&& p.secureMask = value &&& p.secureMask
  icr1 : off = hw.icr1Reg →
    p.regs.icr1 &&& p.secureIcrMask false = value &&& p.secureIcrMask false
  icr2 : off = hw.icr2Reg → p.regs.icr2 &&& p.secureIcrMask true = value &&& p.secureIcrMask true

theorem emuCheck_allows {ty : HwType} {p : Port} {off value : Word}
    (h : (p.emuCheck (hwData ty) off .write value).allowed = true) :
    p.Allows (hwData ty) off value := by
  unfold Port.emuCheck at h
  simp only [hideSecured, keepSecured] at h
  refine ⟨fun ho => ?_, fun ho => ?_, fun ho => ?_, fun ho => ?_, fun ho => ?_, fun ho => ?_⟩ <;>
    subst ho <;> cases ty <;> simpa [hwData, einval] using h

theorem Port.allows_ackPassed {hw : HwData} {p : Port} {off value v : Word} :
    (p.ackPassed v).Allows hw off value ↔ p.Allows hw off value := by
  constructor
  · intro h
    exact ⟨h.dr, h.gdir, h.imr, h.edgeSel, h.icr1, h.icr2⟩
  · intro h
    exact ⟨h.dr, h.gdir, h.imr, h.edgeSel, h.icr1, h.icr2⟩

/-- The two-bit field of number `n`. -/
theorem getLsbD_three_shift {n : Nat} (hn : n < 16) (k : Nat) :
    (3#32 <<< (2 * n)).getLsbD k = decide (k / 2 = n) := by
  rw [BitVec.getLsbD_shiftLeft, getLsbD_three]
  by_cases hk : k / 2 = n
  · have hlt : k < 32 := by omega
    have hlow : ¬ k < 2 * n := by omega
    have htwo : k - 2 * n < 2 := by omega
    simp [hk, hlt, hlow, htwo]
  · by_cases hlow : k < 2 * n
    · simp [hk, hlow]
    · have htwo : ¬ k - 2 * n < 2 := by omega
      simp [hk, htwo]

/-- The fields of the numbers that satisfy `f`. -/
theorem getLsbD_fieldMask (f : Nat → Bool) {n : Nat} (hn : n ≤ 16) (k : Nat) :
    ((List.range n).foldl (fun mask i => if f i = true then mask ||| (3#32 <<< (2 * i)) else mask)
      (0 : Word)).getLsbD k = (decide (k / 2 < n) && f (k / 2)) := by
  induction n with
  | zero => simp
  | succ n ih =>
    have hprev := ih (Nat.le_of_succ_le hn)
    rw [List.range_succ, List.foldl_append, List.foldl_cons, List.foldl_nil]
    by_cases hk : k / 2 = n
    · have hlt : ¬ k / 2 < n := by omega
      by_cases hf : f n = true
      · rw [if_pos hf, BitVec.getLsbD_or, getLsbD_three_shift hn]
        simp [hk, hf]
      · rw [if_neg hf, hprev]
        simp [hk, hf]
    · have hlt : k / 2 < n + 1 ↔ k / 2 < n := by omega
      by_cases hf : f n = true
      · rw [if_pos hf, BitVec.getLsbD_or, getLsbD_three_shift hn, hprev]
        simp [hk, hlt]
      · rw [if_neg hf, hprev]
        simp [hlt]

theorem getLsbD_secureIcrMask (p : Port) (high : Bool) (k : Nat) :
    (p.secureIcrMask high).getLsbD k =
      (decide (k / 2 < 16) && p.secureMask.getLsbD (k / 2 + if high then 16 else 0)) :=
  getLsbD_fieldMask (fun i => p.secureMask.getLsbD (i + if high then 16 else 0)) (Nat.le_refl 16) k

/-! ## Secured pins -/

/-- What a store that starts at the register at `off` leaves of the secured pins of a port. A secured
bit of `IMR` can be set, by a store to `IMR` or by the acknowledgement of an interrupt that was
passed to the non-secure world. -/
structure Port.SecuredKept (hw : HwData) (off : Word) (p q : Port) : Prop where
  secureMask : q.secureMask = p.secureMask
  dr : ∀ j, p.secureMask.getLsbD j = true → q.regs.dr.getLsbD j = p.regs.dr.getLsbD j
  gdir : ∀ j, p.secureMask.getLsbD j = true → q.regs.gdir.getLsbD j = p.regs.gdir.getLsbD j
  edgeSel : ∀ j, p.secureMask.getLsbD j = true →
    q.regs.edgeSel.getLsbD j = p.regs.edgeSel.getLsbD j
  icr1 : ∀ j < 16, p.secureMask.getLsbD j = true →
    q.regs.icr1.extractLsb' (2 * j) 2 = p.regs.icr1.extractLsb' (2 * j) 2
  icr2 : ∀ j < 16, p.secureMask.getLsbD (j + 16) = true →
    q.regs.icr2.extractLsb' (2 * j) 2 = p.regs.icr2.extractLsb' (2 * j) 2
  imr : ∀ j, p.secureMask.getLsbD j = true → q.regs.imr.getLsbD j = p.regs.imr.getLsbD j ∨
    (q.regs.imr.getLsbD j = true ∧ (off = hw.imrReg ∨
      (off = hw.isrReg ∧ p.passedIrqMask.getLsbD j = true)))

theorem Port.SecuredKept.refl (hw : HwData) (off : Word) (p : Port) :
    Port.SecuredKept hw off p p :=
  ⟨rfl, fun _ _ => rfl, fun _ _ => rfl, fun _ _ => rfl, fun _ _ _ => rfl, fun _ _ _ => rfl,
    fun _ _ => Or.inl rfl⟩

/-- Equal under a mask. -/
theorem getLsbD_of_and_eq {x y mask : Word} (h : x &&& mask = y &&& mask) {j : Nat}
    (hj : mask.getLsbD j = true) : x.getLsbD j = y.getLsbD j := by
  have hbit := congrArg (fun z : Word => z.getLsbD j) h
  simpa [hj] using hbit

theorem getLsbD_of_not_and_eq_zero {x mask : Word} (h : ~~~x &&& mask = 0) {j : Nat}
    (hj : mask.getLsbD j = true) : x.getLsbD j = true := by
  have hlt : j < 32 := BitVec.lt_of_getLsbD hj
  have hbit := congrArg (fun z : Word => z.getLsbD j) h
  cases hx : x.getLsbD j with
  | true => rfl
  | false =>
    simp only [BitVec.getLsbD_and, BitVec.getLsbD_not, hx, hj, hlt] at hbit
    simp at hbit

/-- The field of a secured pin. -/
theorem StoredAt.field {off value reg old new : Word} {p : Port} {high : Bool}
    (h : StoredAt off value reg old new)
    (hok : off = reg → old &&& p.secureIcrMask high = value &&& p.secureIcrMask high) {j : Nat}
    (hj : j < 16) (hm : p.secureMask.getLsbD (j + if high then 16 else 0) = true) :
    new.extractLsb' (2 * j) 2 = old.extractLsb' (2 * j) 2 := by
  apply BitVec.eq_of_getLsbD_eq
  intro k hk
  have hdiv : (2 * j + k) / 2 = j := by omega
  have hmask : (p.secureIcrMask high).getLsbD (2 * j + k) = true := by
    rw [getLsbD_secureIcrMask, hdiv, hm]
    simp [hj]
  rw [BitVec.getLsbD_extractLsb', BitVec.getLsbD_extractLsb',
    h.bit fun ho => getLsbD_of_and_eq (hok ho) hmask]

/-- A store that the check of the port allowed. -/
theorem Port.Stored.securedKept {hw : HwData} {off value : Word} {p q : Port}
    (h : Port.Stored hw off value p q) (hok : p.Allows hw off value) :
    Port.SecuredKept hw off p q where
  secureMask := h.secureMask
  dr j hj := h.dr.bit fun ho => getLsbD_of_and_eq (hok.dr ho) hj
  gdir j hj := h.gdir.bit fun ho => getLsbD_of_and_eq (hok.gdir ho) hj
  edgeSel j hj := h.edgeSel.bit fun ho => getLsbD_of_and_eq (hok.edgeSel ho) hj
  icr1 j hlt hj := h.icr1.field hok.icr1 hlt hj
  icr2 j hlt hj := h.icr2.field hok.icr2 hlt hj
  imr j hj := by
    rcases h.imr with hsame | ⟨ho, hmix⟩
    · exact Or.inl (by rw [hsame])
    · rcases hmix j with hold | hval
      · exact Or.inl hold
      · exact Or.inr ⟨hval.trans (getLsbD_of_not_and_eq_zero (hok.imr ho) hj), Or.inl ho⟩

/-- The acknowledgement of passed interrupts only unmasks them. -/
theorem Port.AcksAt.securedKept {hw : HwData} {p : Port} {address value : Word}
    (h : p.AcksAt hw address value) :
    Port.SecuredKept hw (address - p.pbase) p (p.ackPassed value) where
  secureMask := rfl
  dr _ _ := rfl
  gdir _ _ := rfl
  edgeSel _ _ := rfl
  icr1 _ _ _ := rfl
  icr2 _ _ _ := rfl
  imr j _ := by
    have himr : (p.ackPassed value).regs.imr.getLsbD j =
        (p.regs.imr.getLsbD j || value.getLsbD j) := BitVec.getLsbD_or
    rw [himr]
    cases hv : value.getLsbD j with
    | false => exact Or.inl (Bool.or_false _)
    | true =>
      have hpass : p.passedIrqMask.getLsbD j = true := by
        have hbit := congrArg (fun z : Word => z.getLsbD j) h.2
        simpa [hv] using hbit
      exact Or.inr ⟨Bool.or_true _, Or.inr ⟨h.1, hpass⟩⟩

theorem Port.SecuredKept.trans {hw : HwData} {off : Word} {p q t : Port}
    (h : Port.SecuredKept hw off p q) (h' : Port.SecuredKept hw off q t)
    (hpass : ∀ j, q.passedIrqMask.getLsbD j = true → p.passedIrqMask.getLsbD j = true) :
    Port.SecuredKept hw off p t := by
  have hm := h.secureMask
  refine ⟨h'.secureMask.trans hm, fun j hj => ?_, fun j hj => ?_, fun j hj => ?_,
    fun j hlt hj => ?_, fun j hlt hj => ?_, fun j hj => ?_⟩
  · exact (h'.dr j (hm ▸ hj)).trans (h.dr j hj)
  · exact (h'.gdir j (hm ▸ hj)).trans (h.gdir j hj)
  · exact (h'.edgeSel j (hm ▸ hj)).trans (h.edgeSel j hj)
  · exact (h'.icr1 j hlt (hm ▸ hj)).trans (h.icr1 j hlt hj)
  · exact (h'.icr2 j hlt (hm ▸ hj)).trans (h.icr2 j hlt hj)
  · rcases h'.imr j (hm ▸ hj) with hsame | ⟨hset, hwhy⟩
    · rw [hsame]
      exact h.imr j hj
    · refine Or.inr ⟨hset, ?_⟩
      rcases hwhy with himr | ⟨hisr, hp⟩
      · exact Or.inl himr
      · exact Or.inr ⟨hisr, hpass j hp⟩

/-! ## Aborts -/

section
variable {s u : Sys} {ty : HwType} {n : Nat} {p : Port} {pa value : Word}

/-- A port after the checks of a store. -/
theorem Acked.portOf (h : Acked pa value s u) (hty : s.gpio.hwtype = some ty)
    (hp : s.gpio.port n = some p) : ∃ q, u.gpio.port n = some q ∧
      (q = p ∨ (p.AcksAt (hwData ty) pa value ∧ q = p.ackPassed value)) := by
  rcases h.port n with hn | ⟨ty', p', hty', hp', hat, hn⟩
  · exact ⟨p, hn.trans hp, Or.inl rfl⟩
  · obtain rfl : ty' = ty := Option.some.inj (hty'.symm.trans hty)
    obtain rfl : p' = p := Option.some.inj (hp'.symm.trans hp)
    exact ⟨_, hn, Or.inr ⟨hat, rfl⟩⟩

/-- A region that permits a store when it is asked permits it for the port before the store. -/
theorem Acked.allows {r : Region} (h : Acked pa value s u) (hty : s.gpio.hwtype = some ty)
    (hport : gpioPortFromAddress s.gpio r.base = some (n, p)) (hcheck : r.check = .gpio)
    (hperm : r.permits u pa .write value = true) :
    p.Allows (hwData ty) (pa - r.base) value := by
  have hports : u.gpio.ports = s.gpio.ports := by rw [h.rest]
  have htyu : u.gpio.hwtype = some ty := by rw [h.rest, ← hty]
  obtain ⟨q, hq, hqn⟩ := gpioPortFromAddress_of_fixed hports h.fixed hport
  have hallows : q.Allows (hwData ty) (pa - r.base) value := by
    apply emuCheck_allows
    unfold Region.permits Sys.gpioVerdict at hperm
    simpa only [hcheck, htyu, hq] using hperm
  obtain ⟨q', hq', hcases⟩ := h.portOf hty (gpioPortFromAddress_some hport).1
  obtain rfl : q' = q := Option.some.inj (hq'.symm.trans hqn)
  rcases hcases with rfl | ⟨-, rfl⟩
  · exact hallows
  · exact Port.allows_ackPassed.mp hallows

end

/-- An abort at an address that the region of a port covers, at the start of a word, keeps what the
registers say about the secured pins, except that a secured bit of `IMR` can be set. -/
theorem gpio_secured_kept {env : Env} {ctx ctx' : NsecCtx} {status pa ia : Word} {s s' : Sys}
    {w : List Event} {ty : HwType} {r : Region} {n : Nat} {p : Port}
    (hty : s.gpio.hwtype = some ty) (hport : gpioPortFromAddress s.gpio r.base = some (n, p))
    (hr : r ∈ s.regions) (hcheck : r.check = .gpio) (hcov : r.covers pa)
    (halign : (pa - r.base).toNat % 4 = 0)
    (h : Code.Runs (emuHandle env ctx status pa ia) s w ctx' s') :
    ∃ q, s'.gpio.port n = some q ∧ Port.SecuredKept (hwData ty) (pa - r.base) p q := by
  obtain ⟨hp, hbase⟩ := gpioPortFromAddress_some hport
  rcases emuHandle_runs h with ⟨-, -, rfl⟩ | ⟨rt, op, v, w', hacc, hop, -, -⟩
  · exact ⟨p, hp, .refl _ _ _⟩
  cases op with
  | load size sign =>
    obtain ⟨rfl, -⟩ := emuHandleLoad_runs hop
    exact ⟨p, hp, .refl _ _ _⟩
  | store size =>
    obtain ⟨ok, w₁, s₁, h₁, -, hres⟩ := emuHandleStore_runs hop
    obtain ⟨hack, hperm⟩ := emuCheckFrom_acked h₁
    change Acked pa _ s s₁ at hack
    obtain ⟨p₁, hp₁, hcases⟩ := hack.portOf hty hp
    -- what the checks leave
    have hkept : Port.SecuredKept (hwData ty) (pa - r.base) p p₁ := by
      rcases hcases with rfl | ⟨hat, rfl⟩
      · exact .refl _ _ _
      · exact hbase ▸ hat.securedKept
    rcases hres with ⟨hok, -, rfl⟩ | ⟨-, -, rfl⟩
    · obtain ⟨u, hu, hpu⟩ := hperm hok r hr hcov
      have hallows : p.Allows (hwData ty) (pa - r.base) _ := hu.allows hty hport hcheck hpu
      have hsize : size ≤ 4 := by
        have hnarrow := emuAccepts_narrow hacc
        simp only [EmuOp.Narrow] at hnarrow
        omega
      have hbase₁ : p₁.pbase = r.base := by
        rcases hcases with rfl | ⟨-, rfl⟩ <;> exact hbase
      have hty₁ : s₁.gpio.hwtype = some ty := by rw [hack.rest, ← hty]
      obtain ⟨q, hq, hst⟩ := @store_stored env _ (env.data.access pa size)
        (ctx.get rt) _ _ _ hty₁ hp₁ hsize (by rw [hbase₁]; exact halign)
      rw [hbase₁] at hst
      refine ⟨q, hq, hkept.trans (hst.securedKept ?_) ?_⟩
      · rcases hcases with rfl | ⟨-, rfl⟩
        · exact hallows
        · exact Port.allows_ackPassed.mpr hallows
      · intro j hj
        rcases hcases with rfl | ⟨-, rfl⟩
        · exact hj
        · have hboth : (p.passedIrqMask &&& ~~~ctx.get rt).getLsbD j = true := hj
          rw [BitVec.getLsbD_and, Bool.and_eq_true] at hboth
          exact hboth.1
    · exact ⟨p₁, hp₁, hkept⟩

/-- `str r0, [r1]` with all ones at `DR` of the board. -/
theorem gpio_secured_kept_board :
    ∃ p q, gpioPortFromAddress Board.armed.gpio 0x0209C000 = some (0, p) ∧
      ((Board.trap 0x0209C000).after Board.armed).gpio.port 0 = some q ∧
      Port.SecuredKept (hwData .imx35) (0x0209C000 - 0x0209C000) p q := by
  have hfind : (gpioPortFromAddress Board.armed.gpio 0x0209C000).map Prod.fst = some 0 := by
    decide +kernel
  obtain ⟨⟨n, p⟩, hport, rfl⟩ := Option.map_eq_some_iff.mp hfind
  obtain ⟨ctx', hrun⟩ :=
    Code.runs_after (m := Board.trap 0x0209C000) (s := Board.armed) (by decide +kernel)
  obtain ⟨q, hq, hkept⟩ := @gpio_secured_kept imx6 _ _ _ _ _ _ _ _ .imx35
    ⟨0x0209C000, 0x4000, .gpio⟩ _ _ (by decide +kernel) hport (by decide +kernel) rfl (by decide) (by decide) hrun
  exact ⟨p, q, hport, hq, hkept⟩

/-- The board with the interrupt of the home key disabled. The pin is still secured. -/
def Board.homeDisabled : Sys := (irqDisable ⟨.gpio 0, 5⟩).after Board.armed

/-- The board with `strb r0, [r1]` in non-secure memory and pin 9 of the port secured. -/
def Board.byteStore : Sys := pinSecured 0xE5C10000 9

/-- A store of all ones to `IMR` is made and enables the interrupt of a secured pin, and a byte at
`GDIR + 1` makes a secured pin an output. -/
theorem gpio_secured_changed :
    (∃ ctx' w, Code.Runs (Board.trap 0x0209C014) Board.homeDisabled w ctx'
        ((Board.trap 0x0209C014).after Board.homeDisabled) ∧
      emuAccepts imx6 Board.homeDisabled 0x008 0x0209C014 0x10000000 = some (.r 0, .store 4) ∧
      (Board.homeDisabled.gpio.port 0).map (fun p =>
        (p.secureMask.getLsbD 5, p.regs.imr.getLsbD 5)) = some (true, false) ∧
      (((Board.trap 0x0209C014).after Board.homeDisabled).gpio.port 0).map (fun q =>
        q.regs.imr.getLsbD 5) = some true) ∧
    ∃ ctx' w, Code.Runs (Board.trap 0x0209C005) Board.byteStore w ctx'
        ((Board.trap 0x0209C005).after Board.byteStore) ∧
      emuAccepts imx6 Board.byteStore 0x008 0x0209C005 0x10000000 = some (.r 0, .store 1) ∧
      (Board.byteStore.gpio.port 0).map (fun p =>
        (p.secureMask.getLsbD 9, p.regs.gdir.getLsbD 9)) = some (true, false) ∧
      (((Board.trap 0x0209C005).after Board.byteStore).gpio.port 0).map (fun q =>
        q.regs.gdir.getLsbD 9) = some true := by
  obtain ⟨ctx₁, himr⟩ :=
    Code.runs_after (m := Board.trap 0x0209C014) (s := Board.homeDisabled) (by decide +kernel)
  obtain ⟨ctx₂, hgdir⟩ :=
    Code.runs_after (m := Board.trap 0x0209C005) (s := Board.byteStore) (by decide +kernel)
  exact ⟨⟨ctx₁, _, himr, by decide +kernel, by decide +kernel, by decide +kernel⟩,
    ctx₂, _, hgdir, by decide +kernel, by decide +kernel, by decide +kernel⟩

end SeCloak
