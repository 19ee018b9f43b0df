import SeCloak.Emulation.Adjacent
import SeCloak.Emulation.Effects

/-!
# Acknowledging a passed interrupt

The handler of a port masks an interrupt that it passes to the non-secure world and remembers it,
whether or not its pin is secured. The check of a store to `ISR` takes it back only if the store
names a secured pin; a store that names none goes to the register and to nothing else.
-/

namespace SeCloak
open Misc

/-- The interrupts in `v` that had been passed are unmasked and no longer passed. -/
structure Port.Acknowledged (p : Port) (v : Word) (q : Port) : Prop where
  passed : q.passedIrqMask = p.passedIrqMask &&& ~~~v
  imr : q.regs.imr = p.regs.imr ||| (v &&& p.passedIrqMask)

theorem Port.acknowledged_ackPassed {p q : Port} {v : Word} (hpass : v &&& p.passedIrqMask = v)
    (hmask : q.passedIrqMask = (p.ackPassed v).passedIrqMask)
    (himr : q.regs.imr = (p.ackPassed v).regs.imr) : p.Acknowledged v q where
  passed := hmask
  imr := by
    rw [hpass, himr]
    rfl

/-- A port that does nothing has acknowledged only if there was nothing to acknowledge. -/
theorem Port.acknowledged_self_iff {p q : Port} {v : Word}
    (hmask : q.passedIrqMask = p.passedIrqMask) (himr : q.regs.imr = p.regs.imr) : p.Acknowledged v q ↔ v &&& p.passedIrqMask = 0 := by
  constructor
  · intro h
    have hzero := p.and_ackPassed v
    change v &&& (p.passedIrqMask &&& ~~~v) = 0 at hzero
    rw [← h.passed, hmask] at hzero
    exact hzero
  · intro hnone
    refine ⟨?_, ?_⟩
    · rw [hmask]
      apply BitVec.eq_of_getLsbD_eq
      intro i hi
      have hbit := congrArg (fun z : Word => z.getLsbD i) hnone
      rw [BitVec.getLsbD_and, BitVec.getLsbD_not]
      cases hp : p.passedIrqMask.getLsbD i with
      | false => rfl
      | true =>
        simp only [BitVec.getLsbD_and, hp, Bool.and_true] at hbit
        rw [hbit]
        simp [hi]
    · rw [himr, hnone]
      exact BitVec.or_zero.symm

/-! ## The check -/

section

variable {s s' : Sys} {address value : Word} {n : Nat} {p : Port}

/-- A port of which the store names no secured pin stays as it is. -/
theorem emuCheckFrom_unnamed {rs : List Region} {w : List Event} {res : Bool × Word}
    (hp : s.gpio.port n = some p) (hsec : value &&& p.secureMask = 0)
    (h : Code.Runs (emuCheckFrom address .write rs value) s w res s') :
    s'.gpio.port n = some p := by
  induction rs generalizing s w res with
  | nil =>
    obtain ⟨-, -, rfl⟩ := Code.runs_pure.mp h
    exact hp
  | cons r rs ih =>
    rw [emuCheckFrom, Code.runs_ite] at h
    by_cases hcov : r.covers address
    swap
    · rw [if_neg hcov] at h
      exact ih hp h
    rw [if_pos hcov] at h
    obtain ⟨w₁, ⟨ok₁, v₁⟩, s₁, u₁, h₁, k₁, -⟩ := Code.runs_bind.mp h
    obtain ⟨w₂, ⟨ok₂, v₂⟩, s₂, u₂, h₂, k₂, -⟩ := Code.runs_bind.mp k₁
    obtain ⟨-, -, rfl⟩ := Code.runs_pure.mp k₂
    obtain ⟨-, hval, -, -, heffect⟩ := runCheck_runs h₁
    rw [hval rfl] at h₂
    apply ih _ h₂
    by_cases hack : r.TakesAck s address value
    · obtain ⟨m, t, hport, -, hnamed, rfl⟩ := runCheck_ack h₁ hack
      by_cases hm : n = m
      · subst hm
        obtain rfl := Option.some.inj (hp.symm.trans (gpioPortFromAddress_some hport).1)
        exact absurd hsec hnamed
      · rw [ackedBy_port_of_ne hm]
        exact hp
    · rw [if_neg fun ha => hack (acks_iff.mp ha)] at heffect
      rw [heffect.2]
      exact hp

/-- A store changes no mask of passed interrupts. -/
theorem store_passedIrqMask {env : Env} {a : Access} (hp : s.gpio.port n = some p) :
    ((s.store env a value).gpio.port n).map (·.passedIrqMask) = some p.passedIrqMask := by
  refine @store_invariant (fun t => (t.gpio.port n).map (·.passedIrqMask) = some p.passedIrqMask)
    env a value (fun i hi t ht => ?_) s ?_
  · rcases writeByte_port env t (a.byte i) (getLane value i) n with hn | ⟨ty, q, -, hq, -, hn⟩
    · rw [hn]
      exact ht
    · rw [hn]
      rw [hq] at ht
      exact ht
  · rw [hp]
    rfl

/-- A store at `ISR` leaves `IMR` alone. -/
theorem store_isr_imr {env : Env} {a : Access} {ty : HwType} (hty : s.gpio.hwtype = some ty)
    (hp : s.gpio.port n = some p) (hsize : a.size ≤ 4)
    (hisr : a.pa - p.pbase = (hwData ty).isrReg) :
    ∃ q, (s.store env a value).gpio.port n = some q ∧ q.passedIrqMask = p.passedIrqMask ∧
      q.regs.imr = p.regs.imr := by
  have halign : (a.pa - p.pbase).toNat % 4 = 0 := by
    rw [hisr]
    cases ty <;> decide
  obtain ⟨q, hq, hst⟩ := @store_stored env s a value ty n p hty hp hsize halign
  have hmask := @store_passedIrqMask s value n p env a hp
  rw [hq] at hmask
  refine ⟨q, hq, Option.some.inj hmask, ?_⟩
  rcases hst.imr with hsame | ⟨hoff, -⟩
  · exact hsame
  · exact absurd (hoff.symm.trans hisr) (imrReg_ne_isrReg ty)

end

/-! ## Stores to `ISR` -/

/-- A word store to `ISR` that is made acknowledges what had been passed exactly if it names a
secured pin or nothing had been passed. -/
theorem isr_store_iff {env : Env} {ctx ctx' : NsecCtx} {status pa ia : Word} {rt : Rt} {s s' : Sys}
    {w : List Event} {ty : HwType} {r : Region} {n : Nat} {p : Port}
    (hty : s.gpio.hwtype = some ty) (hport : gpioPortFromAddress s.gpio r.base = some (n, p))
    (hr : r ∈ s.regions) (hcheck : r.check = .gpio) (hcov : r.covers pa)
    (hisr : pa - r.base = (hwData ty).isrReg)
    (hacc : emuAccepts env s status pa ia = some (rt, .store 4))
    (h : Code.Runs (emuHandle env ctx status pa ia) s w ctx' s')
    (hmade : .write (env.data.access pa 4) (ctx.get rt) ∈ w) :
    ∃ q, s'.gpio.port n = some q ∧ (p.Acknowledged (ctx.get rt) q ↔
      ctx.get rt &&& p.secureMask ≠ 0 ∨ ctx.get rt &&& p.passedIrqMask = 0) := by
  obtain ⟨hp, hbase⟩ := gpioPortFromAddress_some hport
  rcases emuHandle_runs h with ⟨hnone, -, -⟩ | ⟨rt', op, v, w', hacc', hop, rfl, -⟩
  · rw [hnone] at hacc
    cases hacc
  rw [hacc] at hacc'
  obtain ⟨rfl, rfl⟩ := Prod.mk.inj (Option.some.inj hacc')
  obtain ⟨ok, w₁, s₁, h₁, -, hres⟩ := emuHandleStore_runs hop
  change Code.Runs (emuCheckFrom pa .write s.regions (ctx.get rt)) s w₁ _ s₁ at h₁
  have hlogged : Event.write (env.data.access pa 4) (ctx.get rt) ∈ w' := by simpa using hmade
  rcases hres with ⟨rfl, -, rfl⟩ | ⟨-, rfl, -⟩
  swap
  · exact absurd rfl (emuCheckFrom_log h₁ hlogged)
  obtain ⟨hack, -⟩ := emuCheckFrom_acked h₁
  have hty₁ : s₁.gpio.hwtype = some ty := by rw [hack.rest, ← hty]
  by_cases hsec : ctx.get rt &&& p.secureMask = 0
  · -- nothing but the register itself is stored to
    have hp₁ := emuCheckFrom_unnamed hp hsec h₁
    have hoff : (env.data.access pa 4).pa - p.pbase = (hwData ty).isrReg := by
      rw [hbase]
      exact hisr
    obtain ⟨q, hq, hmask, himr⟩ := store_isr_imr hty₁ hp₁ (Nat.le_refl 4) hoff
    refine ⟨q, hq, ?_⟩
    rw [Port.acknowledged_self_iff hmask himr]
    simp [hsec]
  · -- the check allowed the store, so all interrupts that it names had been passed
    have hall := ((emuCheckFrom_write_ok h₁).mp rfl).1
    have hadmits := permitAll_iff.mp hall r hr hcov
    rw [Region.Admits, hcheck] at hadmits
    have hpass := (hadmits ty n p hty hport).2 hisr hsec
    have htakes : r.TakesAck s pa (ctx.get rt) :=
      ⟨hcheck, ty, n, p, hty, hport, (Port.acksAt_base hbase).mpr ⟨hisr, hpass⟩, hsec⟩
    have hp₁ := emuCheckFrom_acknowledges h₁ ⟨r, hr, hcov, htakes, hport⟩
    have hoff : (env.data.access pa 4).pa - (p.ackPassed (ctx.get rt)).pbase =
        (hwData ty).isrReg := by
      change pa - p.pbase = _
      rw [hbase]
      exact hisr
    obtain ⟨q, hq, hmask, himr⟩ := store_isr_imr hty₁ hp₁ (Nat.le_refl 4) hoff
    refine ⟨q, hq, ?_⟩
    have hdone : p.Acknowledged (ctx.get rt) q := Port.acknowledged_ackPassed hpass hmask himr
    exact ⟨fun _ => Or.inl hsec, fun _ => hdone⟩

namespace Board

/-- The home key is acknowledged: `str r0, [r1]` at `ISR` with its bit. -/
def ackHome : Kernel NsecCtx := emuHandle imx6 (ctxWith 0x20) 0x008 0x0209C018 0x10000000

/-- The non-secure world enables all interrupts of the port, and one of a pin that is not secured
is passed on. -/
def pinPassed : Sys := (mxcGpioIrqHandler imx6 0 0x80).after ((trap 0x0209C014).after armed)

/-- The pin is acknowledged. -/
def ackPin : Kernel NsecCtx := emuHandle imx6 (ctxWith 0x80) 0x008 0x0209C018 0x10000000

end Board

/-- The store of an event. -/
def Event.stored : Event → Option (Access × Word)
  | .write a v => some (a, v)
  | _ => none

theorem mem_of_stored {w : List Event} {a : Access} {v : Word}
    (h : (a, v) ∈ w.filterMap Event.stored) : .write a v ∈ w := by
  obtain ⟨e, he, hs⟩ := List.mem_filterMap.mp h
  cases e with
  | write b u =>
    obtain ⟨rfl, rfl⟩ := Prod.mk.inj (Option.some.inj hs)
    exact he
  | prot | blit | pixel | fetch | read => cases hs

theorem isr_store_iff_home :
    ∃ p q, gpioPortFromAddress Board.homePassed.gpio 0x0209C000 = some (0, p) ∧
      ((Board.ackHome.after Board.homePassed).gpio.port 0) = some q ∧
      (p.Acknowledged 0x20 q ↔ 0x20 &&& p.secureMask ≠ 0 ∨ 0x20 &&& p.passedIrqMask = 0) := by
  have hfind : (gpioPortFromAddress Board.homePassed.gpio 0x0209C000).map Prod.fst = some 0 := by
    decide +kernel
  obtain ⟨⟨n, p⟩, hport, rfl⟩ := Option.map_eq_some_iff.mp hfind
  obtain ⟨ctx', hrun⟩ :=
    Code.runs_after (m := Board.ackHome) (s := Board.homePassed) (by decide +kernel)
  have hmade := mem_of_stored (w := (Board.ackHome Board.homePassed).events)
    (a := imx6.data.access 0x0209C018 4) (v := (ctxWith 0x20).get (.r 0)) (by decide +kernel)
  obtain ⟨q, hq, hiff⟩ := @isr_store_iff imx6 (ctxWith 0x20) ctx' 0x008 0x0209C018 0x10000000 (.r 0)
    Board.homePassed _ _ .imx35 ⟨0x0209C000, 0x4000, .gpio⟩ 0 p (by decide +kernel) hport
    (by decide +kernel) rfl (by decide) (by decide) (by decide +kernel) hrun hmade
  exact ⟨p, q, hport, hq, hiff⟩

/-- The acknowledgement of a pin that is not secured is stored to `ISR`, and the interrupt stays
masked and passed. -/
theorem plain_pin_stays_masked :
    (∃ ctx', Code.Runs Board.ackPin Board.pinPassed (Board.ackPin Board.pinPassed).events ctx'
      (Board.ackPin.after Board.pinPassed)) ∧
      emuAccepts imx6 Board.pinPassed 0x008 0x0209C018 0x10000000 = some (.r 0, .store 4) ∧
      .write (imx6.data.access 0x0209C018 4) 0x80 ∈ (Board.ackPin Board.pinPassed).events ∧
      (Board.pinPassed.gpio.port 0).map (fun p => (p.passedIrqMask, p.regs.imr)) =
        some (0x80, 0xFFFFFF7F) ∧
      ((Board.ackPin.after Board.pinPassed).gpio.port 0).map
        (fun q => (q.passedIrqMask, q.regs.imr)) = some (0x80, 0xFFFFFF7F) := by
  have hruns := Code.runs_after (m := Board.ackPin) (s := Board.pinPassed) (by decide +kernel)
  have hmade := mem_of_stored (w := (Board.ackPin Board.pinPassed).events)
    (a := imx6.data.access 0x0209C018 4) (v := 0x80) (by decide +kernel)
  exact ⟨hruns, by decide +kernel, hmade, by decide +kernel, by decide +kernel⟩

end SeCloak
