import SeCloak.Drivers.GpioIrq
import SeCloak.Emulation.Integrity

/-!
# What a refused store leaves behind

Every region that covers the address of a store is asked, and the check of a port acknowledges
interrupts as soon as the port itself permits the store. A region that refuses the store before or
after that does not take the acknowledgement back, and neither does a second region of the same
port, which finds the interrupts acknowledged already.
-/

namespace SeCloak
open Misc

/-! ## Acknowledgements -/

/-- A region takes a store as the acknowledgement of interrupts that were passed to the non-secure
world: the store is to `ISR` of its port and names secured pins and only passed interrupts. -/
def Region.TakesAck (r : Region) (s : Sys) (address value : Word) : Prop :=
  r.check = .gpio ∧ ∃ ty n p, s.gpio.hwtype = some ty ∧
    gpioPortFromAddress s.gpio r.base = some (n, p) ∧ p.AcksAt (hwData ty) address value ∧
    value &&& p.secureMask ≠ 0

/-- A store to `ISR` that names secured pins is an acknowledgement of passed interrupts, or refused. -/
theorem emuCheck_isr {ty : HwType} {p : Port} {value : Word} (hsec : value &&& p.secureMask ≠ 0) :
    p.emuCheck (hwData ty) (hwData ty).isrReg .write value =
      if value &&& p.passedIrqMask = value then { value := value, ack := true }
      else { allowed := false, value := value } := by
  have hnot : (hwData ty).isrReg ≠ (hwData ty).drReg ∧
      (hwData ty).isrReg ≠ (hwData ty).gdirReg := by cases ty <;> decide
  rw [Port.emuCheck, if_neg hnot.1, if_neg hnot.2, if_pos rfl]
  exact if_pos hsec

theorem emuCheck_ack_iff {ty : HwType} {p : Port} {offset value : Word} :
    (p.emuCheck (hwData ty) offset .write value).ack = true ↔
      (offset = (hwData ty).isrReg ∧ value &&& p.passedIrqMask = value) ∧
        value &&& p.secureMask ≠ 0 := by
  constructor
  · intro h
    refine ⟨emuCheck_ack_at h, fun hzero => ?_⟩
    unfold Port.emuCheck at h
    simp only [hideSecured, keepSecured] at h
    split_ifs at h
    rename_i hsec _
    exact hsec hzero
  · rintro ⟨⟨rfl, hpass⟩, hsec⟩
    rw [emuCheck_isr hsec, if_pos hpass]

theorem Port.acksAt_base {hw : HwData} {p : Port} {base address value : Word}
    (hbase : p.pbase = base) : p.AcksAt hw address value ↔
      address - base = hw.isrReg ∧ value &&& p.passedIrqMask = value := by
  rw [Port.AcksAt, hbase]

theorem acks_iff {r : Region} {s : Sys} {address value : Word} :
    r.acks s address .write value = true ↔ r.TakesAck s address value := by
  unfold Region.acks Region.TakesAck Sys.gpioVerdict
  cases r.check with
  | allowAll | denyAll | fb => simp
  | gpio =>
    cases hty : s.gpio.hwtype with
    | none => simp
    | some ty =>
      cases hport : gpioPortFromAddress s.gpio r.base with
      | none => simp
      | some np =>
        obtain ⟨n, p⟩ := np
        have hbase := (gpioPortFromAddress_some hport).2
        dsimp only
        rw [emuCheck_ack_iff, ← Port.acksAt_base hbase]
        constructor
        · intro h
          exact ⟨rfl, ty, n, p, rfl, rfl, h⟩
        · rintro ⟨-, ty', n', p', hty', hport', h⟩
          obtain rfl := Option.some.inj hty'
          obtain ⟨rfl, rfl⟩ := Prod.mk.inj (Option.some.inj hport')
          exact h

/-- None of the interrupts that are acknowledged stays passed. -/
theorem Port.and_ackPassed (p : Port) (value : Word) :
    value &&& (p.ackPassed value).passedIrqMask = 0 := by
  change value &&& (p.passedIrqMask &&& ~~~value) = 0
  rw [BitVec.and_comm p.passedIrqMask, ← BitVec.and_assoc, BitVec.and_not_self]
  exact BitVec.zero_and

theorem ne_zero_of_and_ne_zero {v mask : Word} (h : v &&& mask ≠ 0) : v ≠ 0 := by
  rintro rfl
  exact h BitVec.zero_and

/-- The state after an acknowledgement to the `n`-th port. -/
def Sys.ackedBy (s : Sys) (n : Nat) (p : Port) (value : Word) : Sys :=
  { s with gpio := { s.gpio with
      port := Function.update s.gpio.port n (some (p.ackPassed value)) } }

theorem runCheck_ack {r : Region} {address value : Word} {s s' : Sys} {res : Bool × Word}
    {w : List Event} (h : Code.Runs (r.runCheck address .write value) s w res s')
    (hack : r.TakesAck s address value) :
    ∃ n p, gpioPortFromAddress s.gpio r.base = some (n, p) ∧ value &&& p.passedIrqMask = value ∧
      value &&& p.secureMask ≠ 0 ∧ s' = s.ackedBy n p value := by
  obtain ⟨hcheck, ty, n, p, hty, hport, hat, hsec⟩ := hack
  have hverdict : (p.emuCheck (hwData ty) (address - r.base) .write value).ack = true := by
    rw [emuCheck_ack_iff, ← Port.acksAt_base (gpioPortFromAddress_some hport).2]
    exact ⟨hat, hsec⟩
  refine ⟨n, p, hport, hat.2, hsec, ?_⟩
  unfold Region.runCheck at h
  simp only [hcheck] at h
  rw [gpioEmuCheck, Code.runs_get_bind] at h
  simp only [hty, hport] at h
  obtain ⟨w₁, _, s₁, w₂, h₁, h₂, -⟩ := Code.runs_bind.mp h
  obtain ⟨-, -, rfl⟩ := Code.runs_pure.mp h₂
  rcases Code.runs_runIf.mp h₁ with ⟨-, h₁⟩ | ⟨hno, -⟩
  · obtain ⟨w₃, _, s₃, w₄, h₃, h₄, -⟩ := Code.runs_bind.mp h₁
    obtain ⟨-, q, hq, rfl⟩ := modifyPort_runs h₃
    obtain ⟨-, rfl⟩ := Code.runs_emit.mp h₄
    obtain rfl : p = q := Option.some.inj ((gpioPortFromAddress_some hport).1.symm.trans hq)
    rfl
  · exact absurd hverdict hno

/-! ## The other regions -/

section

variable {s s' : Sys} {r : Region} {n : Nat} {p : Port} {address value : Word}

theorem ackedBy_ports : (s.ackedBy n p value).gpio.ports = s.gpio.ports := rfl

theorem ackedBy_port : (s.ackedBy n p value).gpio.port n = some (p.ackPassed value) :=
  Function.update_self _ _ _

theorem ackedBy_port_of_ne {m : Nat} (hm : m ≠ n) :
    (s.ackedBy n p value).gpio.port m = s.gpio.port m := Function.update_of_ne hm _ _

theorem ackedBy_fixed (hport : gpioPortFromAddress s.gpio r.base = some (n, p)) (m : Nat) :
    ((s.ackedBy n p value).gpio.port m).map Port.fixed = (s.gpio.port m).map Port.fixed := by
  by_cases hm : m = n
  · subst hm
    rw [(gpioPortFromAddress_some hport).1, ackedBy_port]
    rfl
  · rw [ackedBy_port_of_ne hm]

/-- A port with another base is found as it was. -/
theorem gpioPortFromAddress_ackedBy_of_ne (hport : gpioPortFromAddress s.gpio r.base = some (n, p))
    {base : Word} (hne : r.base ≠ base) :
    gpioPortFromAddress (s.ackedBy n p value).gpio base = gpioPortFromAddress s.gpio base := by
  have hfix : ∀ m, ((s.ackedBy n p value).gpio.port m).map Port.fixed =
      (s.gpio.port m).map Port.fixed := ackedBy_fixed hport
  cases hq : gpioPortFromAddress s.gpio base with
  | none =>
    have hmap := gpioPortFromAddress_fixed ackedBy_ports hfix base
    rw [hq] at hmap
    exact Option.map_eq_none_iff.mp hmap
  | some mp =>
    obtain ⟨m, t⟩ := mp
    obtain ⟨t', hfind, ht'⟩ := gpioPortFromAddress_of_fixed ackedBy_ports hfix hq
    obtain ⟨ht, hbase⟩ := gpioPortFromAddress_some hq
    have hm : m ≠ n := by
      rintro rfl
      obtain ⟨hp, hbase'⟩ := gpioPortFromAddress_some hport
      obtain rfl := Option.some.inj (hp.symm.trans ht)
      exact hne (hbase'.symm.trans hbase)
    rw [ackedBy_port_of_ne hm, ht] at ht'
    rw [hfind, Option.some.inj ht']

/-- A region that is asked in both states gives the same answers unless it is of the same port. -/
theorem permits_acks_ackedBy (hport : gpioPortFromAddress s.gpio r.base = some (n, p)) {q : Region}
    (hother : q.check = .gpio → r.base ≠ q.base) :
    q.permits (s.ackedBy n p value) address .write value = q.permits s address .write value ∧
      q.acks (s.ackedBy n p value) address .write value = q.acks s address .write value := by
  unfold Region.permits Region.acks
  cases hc : q.check with
  | allowAll | denyAll | fb => exact ⟨rfl, rfl⟩
  | gpio =>
    unfold Sys.gpioVerdict
    rw [gpioPortFromAddress_ackedBy_of_ne hport (hother hc)]
    exact ⟨rfl, rfl⟩

/-- An acknowledgement cannot be made twice: the second region of the port refuses the store. -/
theorem permits_ackedBy_again (hack : r.TakesAck s address value)
    (hport : gpioPortFromAddress s.gpio r.base = some (n, p)) {q : Region}
    (hcheck : q.check = .gpio) (hbase : r.base = q.base) :
    q.permits (s.ackedBy n p value) address .write value = false := by
  obtain ⟨-, ty, n', p', hty, hport', hat, hsec⟩ := hack
  rw [hport] at hport'
  obtain ⟨rfl, rfl⟩ := Prod.mk.inj (Option.some.inj hport')
  have hfix : ∀ m, ((s.ackedBy n p value).gpio.port m).map Port.fixed =
      (s.gpio.port m).map Port.fixed := ackedBy_fixed hport
  obtain ⟨t, hfind, ht⟩ := gpioPortFromAddress_of_fixed ackedBy_ports hfix hport
  obtain rfl : p.ackPassed value = t := Option.some.inj (ackedBy_port.symm.trans ht)
  have hoff := ((Port.acksAt_base (gpioPortFromAddress_some hport).2).mp hat).1
  have hgone : value &&& (p.ackPassed value).passedIrqMask ≠ value := by
    rw [p.and_ackPassed value]
    exact (ne_zero_of_and_ne_zero hsec).symm
  have hsec' : value &&& (p.ackPassed value).secureMask ≠ 0 := hsec
  have htyOf : (s.ackedBy n p value).gpio.hwtype = some ty := hty
  unfold Region.permits Sys.gpioVerdict
  rw [hcheck, ← hbase]
  simp only [htyOf, hfind, hoff]
  rw [emuCheck_isr hsec', if_neg hgone]

end

/-! ## The check of a store -/

/-- The bases of the regions that cover the address and take the store as an acknowledgement. -/
def ackBases (s : Sys) (rs : List Region) (address value : Word) : List Word :=
  (rs.filter fun r => decide (r.covers address) && r.acks s address .write value).map (·.base)

section

variable {s s' : Sys} {r : Region} {rs : List Region} {address value : Word}

theorem mem_ackBases {b : Word} : b ∈ ackBases s rs address value ↔
    ∃ q ∈ rs, q.covers address ∧ q.acks s address .write value = true ∧ q.base = b := by
  simp [ackBases, and_assoc]

theorem ackBases_cons_of_acks (hcov : r.covers address)
    (hack : r.acks s address .write value = true) :
    ackBases s (r :: rs) address value = r.base :: ackBases s rs address value := by
  simp [ackBases, hcov, hack]

theorem ackBases_cons_of_not (h : r.covers address → r.acks s address .write value = false) :
    ackBases s (r :: rs) address value = ackBases s rs address value := by
  by_cases hcov : r.covers address
  · simp [ackBases, h hcov]
  · simp [ackBases, hcov]

/-- The answers to a store are those of another state if all regions that are asked agree. -/
theorem answers_congr (h : ∀ q ∈ rs, q.covers address →
      q.permits s' address .write value = q.permits s address .write value ∧
        q.acks s' address .write value = q.acks s address .write value) :
    permitAll s' rs address .write value = permitAll s rs address .write value ∧
      ackBases s' rs address value = ackBases s rs address value := by
  induction rs with
  | nil => exact ⟨rfl, rfl⟩
  | cons r rs ih =>
    obtain ⟨hr, hrs⟩ := List.forall_mem_cons.mp h
    obtain ⟨hperm, hbases⟩ := ih hrs
    rw [permitAll_cons, permitAll_cons, hperm]
    by_cases hcov : r.covers address
    · obtain ⟨hp, ha⟩ := hr hcov
      rw [hp]
      refine ⟨rfl, ?_⟩
      cases hack : r.acks s address .write value with
      | true =>
        rw [ackBases_cons_of_acks hcov hack, ackBases_cons_of_acks hcov (ha.trans hack), hbases]
      | false =>
        rw [ackBases_cons_of_not fun _ => hack, ackBases_cons_of_not fun _ => ha.trans hack, hbases]
    · rw [ackBases_cons_of_not fun hc => absurd hc hcov,
        ackBases_cons_of_not fun hc => absurd hc hcov, hbases]
      simp [hcov]

/-- Whether a region acknowledges depends on its base. -/
theorem Region.TakesAck.of_base (h : r.TakesAck s address value) {q : Region}
    (hcheck : q.check = .gpio) (hbase : r.base = q.base) : q.TakesAck s address value := by
  obtain ⟨-, rest⟩ := h
  rw [hbase] at rest
  exact ⟨hcheck, rest⟩

/-- A store is allowed if every region that covers its address permits it, and no two of them
acknowledge interrupts of the same port. -/
theorem emuCheckFrom_write_ok {v : Word} {ok : Bool} {w : List Event}
    (h : Code.Runs (emuCheckFrom address .write rs value) s w (ok, v) s') :
    ok = true ↔ permitAll s rs address .write value = true ∧
      (ackBases s rs address value).Nodup := by
  induction rs generalizing s w ok v with
  | nil =>
    obtain ⟨-, hv, -⟩ := Code.runs_pure.mp h
    obtain ⟨rfl, -⟩ := Prod.mk.inj hv
    simp [permitAll, ackBases]
  | cons r rs ih =>
    rw [emuCheckFrom, Code.runs_ite] at h
    by_cases hcov : r.covers address
    swap
    · rw [if_neg hcov] at h
      rw [permitAll_cons, ackBases_cons_of_not fun hc => absurd hc hcov, ih h]
      simp [hcov]
    rw [if_pos hcov] at h
    obtain ⟨w₁, ⟨ok₁, v₁⟩, s₁, u₁, h₁, k₁, -⟩ := Code.runs_bind.mp h
    obtain ⟨w₂, ⟨ok₂, v₂⟩, s₂, u₂, h₂, k₂, -⟩ := Code.runs_bind.mp k₁
    obtain ⟨-, hv, rfl⟩ := Code.runs_pure.mp k₂
    obtain ⟨rfl, -⟩ := Prod.mk.inj hv
    obtain ⟨rfl, hval, -, -, heffect⟩ := runCheck_runs h₁
    rw [hval rfl] at h₂
    rw [permitAll_cons, Bool.and_eq_true, ih h₂]
    cases hack : r.acks s address .write value with
    | false =>
      rw [hack] at heffect
      obtain ⟨-, rfl⟩ := heffect
      rw [ackBases_cons_of_not fun _ => hack]
      simp [hcov, and_assoc]
    | true =>
      obtain ⟨n, p, hport, -, -, rfl⟩ := runCheck_ack h₁ (acks_iff.mp hack)
      rw [ackBases_cons_of_acks hcov hack, List.nodup_cons]
      by_cases hsame : ∃ q ∈ rs, q.covers address ∧ q.check = .gpio ∧ r.base = q.base
      · -- the second region of the port
        obtain ⟨q, hq, hqcov, hcheck, hbase⟩ := hsame
        have hrefused := permits_ackedBy_again (acks_iff.mp hack) hport hcheck hbase
        have hnone : permitAll (s.ackedBy n p value) rs address .write value = false :=
          permitAll_eq_false.mpr ⟨q, hq, hqcov, hrefused⟩
        have hmem : r.base ∈ ackBases s rs address value := by
          rw [mem_ackBases]
          exact ⟨q, hq, hqcov, acks_iff.mpr ((acks_iff.mp hack).of_base hcheck hbase), hbase.symm⟩
        simp [hnone, hmem]
      · have hothers : ∀ q ∈ rs, q.covers address → q.check = .gpio → r.base ≠ q.base :=
          fun q hq hqcov hcheck hbase => hsame ⟨q, hq, hqcov, hcheck, hbase⟩
        obtain ⟨hperm, hbases⟩ := answers_congr fun q hq hqcov =>
          permits_acks_ackedBy hport (hothers q hq hqcov)
        have hmem : r.base ∉ ackBases s rs address value := by
          rw [mem_ackBases]
          rintro ⟨q, hq, hqcov, hqack, hbase⟩
          exact hothers q hq hqcov (acks_iff.mp hqack).1 hbase.symm
        rw [hperm, hbases]
        simp [hcov, hmem, and_assoc]

/-- A port that one of the regions acknowledges interrupts of has acknowledged them in the end,
whatever comes before and after that. -/
theorem emuCheckFrom_acknowledges {w : List Event} {res : Bool × Word} {n : Nat} {p : Port}
    (h : Code.Runs (emuCheckFrom address .write rs value) s w res s')
    (hack : ∃ r ∈ rs, r.covers address ∧ r.TakesAck s address value ∧
      gpioPortFromAddress s.gpio r.base = some (n, p)) :
    s'.gpio.port n = some (p.ackPassed value) := by
  obtain ⟨q, hq, hqcov, hqack, hqport⟩ := hack
  induction rs generalizing s w res with
  | nil => cases hq
  | cons r rs ih =>
    rw [emuCheckFrom, Code.runs_ite] at h
    by_cases hcov : r.covers address
    swap
    · rw [if_neg hcov] at h
      rcases List.mem_cons.mp hq with rfl | hq
      · exact absurd hqcov hcov
      · exact ih h hq hqack hqport
    rw [if_pos hcov] at h
    obtain ⟨w₁, ⟨ok₁, v₁⟩, s₁, u₁, h₁, k₁, -⟩ := Code.runs_bind.mp h
    obtain ⟨w₂, ⟨ok₂, v₂⟩, s₂, u₂, h₂, k₂, -⟩ := Code.runs_bind.mp k₁
    obtain ⟨-, -, rfl⟩ := Code.runs_pure.mp k₂
    obtain ⟨-, hval, -, -, heffect⟩ := runCheck_runs h₁
    rw [hval rfl] at h₂
    by_cases hr : r.TakesAck s address value
    · obtain ⟨m, t, hport, -, -, rfl⟩ := runCheck_ack h₁ hr
      by_cases hbase : r.base = q.base
      · -- the first region of the port; whatever comes later, the interrupts stay acknowledged
        rw [hbase, hqport] at hport
        obtain ⟨rfl, rfl⟩ := Prod.mk.inj (Option.some.inj hport)
        rcases (emuCheckFrom_acked h₂).1.port n with hn | ⟨-, t, -, ht, -, hn⟩
        · rw [hn]
          exact ackedBy_port
        · obtain rfl := Option.some.inj (ackedBy_port.symm.trans ht)
          rw [hn, p.ackPassed_ackPassed value]
      · have hmem : q ∈ rs := (List.mem_cons.mp hq).resolve_left fun heq => hbase (by rw [heq])
        obtain ⟨-, hsame⟩ := @permits_acks_ackedBy s r m t address value hport q fun _ => hbase
        apply ih h₂ hmem
        · exact acks_iff.mp (hsame.trans (acks_iff.mpr hqack))
        · rw [gpioPortFromAddress_ackedBy_of_ne hport hbase]
          exact hqport
    · rw [if_neg fun ha => hr (acks_iff.mp ha)] at heffect
      obtain ⟨-, rfl⟩ := heffect
      rcases List.mem_cons.mp hq with rfl | hq
      · exact absurd hqack hr
      · exact ih h₂ hq hqack hqport

theorem emuCheckFrom_changed {w : List Event} {res : Bool × Word}
    (h : Code.Runs (emuCheckFrom address .write rs value) s w res s')
    (hack : ∃ r ∈ rs, r.covers address ∧ r.TakesAck s address value) : s'.gpio ≠ s.gpio := by
  obtain ⟨r, hr, hcov, hrack⟩ := hack
  have hrack' := hrack
  obtain ⟨-, ty, n, p, -, hport, hat, hsec⟩ := hrack'
  have hlast := emuCheckFrom_acknowledges h ⟨r, hr, hcov, hrack, hport⟩
  intro heq
  rw [heq, (gpioPortFromAddress_some hport).1] at hlast
  have hmask := congrArg Port.passedIrqMask (Option.some.inj hlast)
  have hzero := p.and_ackPassed value
  rw [← hmask, hat.2] at hzero
  exact ne_zero_of_and_ne_zero hsec hzero

end

/-! ## Refused stores -/

/-- A region permits a store: for a port, the secured pins keep their values, and an acknowledgement
that names secured pins names only passed interrupts. -/
def Region.Admits (r : Region) (s : Sys) (address value : Word) : Prop :=
  match r.check with
  | .allowAll => True
  | .denyAll => False
  | .fb => fbEmuCheck r address .write = true
  | .gpio => ∀ ty n p, s.gpio.hwtype = some ty →
      gpioPortFromAddress s.gpio r.base = some (n, p) →
      p.Allows (hwData ty) (address - r.base) value ∧
        (address - r.base = (hwData ty).isrReg → value &&& p.secureMask ≠ 0 →
          value &&& p.passedIrqMask = value)

theorem emuCheck_allowed_iff {ty : HwType} {p : Port} {off value : Word} :
    (p.emuCheck (hwData ty) off .write value).allowed = true ↔
      p.Allows (hwData ty) off value ∧ (off = (hwData ty).isrReg → value &&& p.secureMask ≠ 0 →
        value &&& p.passedIrqMask = value) := by
  constructor
  · intro h
    refine ⟨emuCheck_allows h, ?_⟩
    rintro rfl hsec
    by_contra hpass
    rw [emuCheck_isr hsec, if_neg hpass] at h
    cases h
  · rintro ⟨hok, hisr⟩
    unfold Port.emuCheck
    simp only [hideSecured, keepSecured]
    split_ifs with hdr hgdir hoff hsec hpass himr hpsr hedge hicr1 hicr2
    · exact decide_eq_true (hok.dr hdr)
    · exact decide_eq_true (hok.gdir hgdir)
    · rfl
    · exact absurd (hisr hoff hsec) hpass
    · rfl
    · exact decide_eq_true (hok.imr himr)
    · rfl
    · exact decide_eq_true (hok.edgeSel hedge)
    · exact decide_eq_true (hok.icr1 hicr1)
    · exact decide_eq_true (hok.icr2 hicr2)
    · rfl

theorem permits_iff {r : Region} {s : Sys} {address value : Word} :
    r.permits s address .write value = true ↔ r.Admits s address value := by
  unfold Region.permits Region.Admits Sys.gpioVerdict
  cases r.check with
  | allowAll | denyAll | fb => simp
  | gpio =>
    dsimp only
    cases s.gpio.hwtype with
    | none => simp
    | some ty =>
      cases gpioPortFromAddress s.gpio r.base with
      | none => simp
      | some np =>
        dsimp only
        rw [emuCheck_allowed_iff]
        constructor
        · intro h ty' n' p' hty' hnp'
          obtain rfl := Option.some.inj hty'
          obtain rfl := Option.some.inj hnp'
          exact h
        · intro h
          exact h ty np.1 np.2 rfl rfl

theorem permitAll_iff {s : Sys} {rs : List Region} {address value : Word} :
    permitAll s rs address .write value = true ↔
      ∀ r ∈ rs, r.covers address → r.Admits s address value := by
  simp only [permitAll, List.all_eq_true, Bool.or_eq_true, Bool.not_eq_true',
    decide_eq_false_iff_not, permits_iff, ← imp_iff_not_or]

theorem ackBases_nodup_iff {s : Sys} {rs : List Region} {address value : Word} :
    (ackBases s rs address value).Nodup ↔ rs.Pairwise fun q r =>
      q.covers address ∧ q.TakesAck s address value →
        r.covers address ∧ r.TakesAck s address value → q.base ≠ r.base := by
  unfold ackBases List.Nodup
  rw [List.pairwise_map, List.pairwise_filter]
  simp only [Bool.and_eq_true, decide_eq_true_eq, acks_iff]

/-- A refused store leaves memory and the ports alone exactly if it is no acknowledgement, or all
regions permit it and no two of them acknowledge interrupts of the same port (and it is not
refused). -/
theorem emuCheck_refused_iff {address value v : Word} {ok : Bool} {s s' : Sys} {w : List Event}
    (h : Code.Runs (emuCheck address .write value) s w (ok, v) s') :
    (ok = false → s'.mem = s.mem ∧ s'.gpio = s.gpio) ↔
      (∀ r ∈ s.regions, r.covers address → ¬ r.TakesAck s address value) ∨
      ((∀ r ∈ s.regions, r.covers address → r.Admits s address value) ∧
        s.regions.Pairwise fun q r => q.covers address ∧ q.TakesAck s address value →
          r.covers address ∧ r.TakesAck s address value → q.base ≠ r.base) := by
  rw [emuCheck, Code.runs_get_bind] at h
  rw [← permitAll_iff, ← ackBases_nodup_iff, ← emuCheckFrom_write_ok h]
  constructor
  · intro hkeep
    by_cases hex : ∃ r ∈ s.regions, r.covers address ∧ r.TakesAck s address value
    · right
      cases ok with
      | true => rfl
      | false => exact absurd (hkeep rfl).2 (emuCheckFrom_changed h hex)
    · left
      intro r hr hcov hack
      exact hex ⟨r, hr, hcov, hack⟩
  · rintro (hno | rfl) hok
    · have hnone : ackAny s s.regions address .write value = false := by
        rw [ackAny_eq_false]
        intro r hr hcov
        apply Bool.eq_false_iff.mpr
        intro hack
        exact hno r hr hcov (acks_iff.mp hack)
      obtain ⟨-, rfl, -⟩ := (emuCheckFrom_write h).2.1 hnone
      exact ⟨rfl, rfl⟩
    · cases hok

namespace Board

/-- The board after a press of the home key, which is passed to the non-secure world. -/
def homePassed : Sys := (mxcGpioIrqHandler imx6 0 0x20).after armed

/-- The port itself is disabled after the press. -/
def portDisabled : Sys := (dtEnableDevice imx6 gpio1 false).after homePassed

end Board

/-- A press of the home key is acknowledged on the board, and no region refuses. -/
theorem emuCheck_refused_iff_home :
    ∃ ok v s' w, Code.Runs (emuCheck 0x0209C018 .write 0x20) Board.homePassed w (ok, v) s' ∧
      ((ok = false → s'.mem = Board.homePassed.mem ∧ s'.gpio = Board.homePassed.gpio) ↔
        (∀ r ∈ Board.homePassed.regions, r.covers 0x0209C018 →
          ¬ r.TakesAck Board.homePassed 0x0209C018 0x20) ∨
        ((∀ r ∈ Board.homePassed.regions, r.covers 0x0209C018 →
            r.Admits Board.homePassed 0x0209C018 0x20) ∧
          Board.homePassed.regions.Pairwise fun q r =>
            q.covers 0x0209C018 ∧ q.TakesAck Board.homePassed 0x0209C018 0x20 →
              r.covers 0x0209C018 ∧ r.TakesAck Board.homePassed 0x0209C018 0x20 →
                q.base ≠ r.base)) := by
  obtain ⟨⟨ok, v⟩, hrun⟩ := Code.runs_after (m := emuCheck 0x0209C018 .write 0x20)
    (s := Board.homePassed) (by decide +kernel)
  exact ⟨ok, v, _, _, hrun, emuCheck_refused_iff hrun⟩

/-- The region of the disabled port refuses the acknowledgement that its own region makes. -/
theorem refused_store_acknowledges :
    ∃ v w, Code.Runs (emuCheck 0x0209C018 .write 0x20) Board.portDisabled w (false, v)
        ((emuCheck 0x0209C018 .write 0x20).after Board.portDisabled) ∧
      (Board.portDisabled.gpio.port 0).map (fun p => (p.passedIrqMask, p.regs.imr)) =
        some (0x20, 0x10) ∧
      (((emuCheck 0x0209C018 .write 0x20).after Board.portDisabled).gpio.port 0).map
        (fun p => (p.passedIrqMask, p.regs.imr)) = some (0, 0x30) := by
  obtain ⟨⟨ok, v⟩, hrun⟩ := Code.runs_after (m := emuCheck 0x0209C018 .write 0x20)
    (s := Board.portDisabled) (by decide +kernel)
  have hout := Code.out_eq_some.mpr ⟨_, hrun⟩
  have hok : ((emuCheck 0x0209C018 .write 0x20).out Board.portDisabled).map (·.1.1) =
      some false := by decide +kernel
  rw [hout] at hok
  obtain rfl : ok = false := Option.some.inj hok
  exact ⟨v, _, hrun, by decide +kernel, by decide +kernel⟩

end SeCloak
