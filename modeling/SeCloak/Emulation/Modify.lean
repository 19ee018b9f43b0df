import SeCloak.Emulation.Acknowledge
import SeCloak.Emulation.Secrecy

/-!
# Changing single pins of a register

A driver of the non-secure world changes some pins of a register by a load, a change of the loaded
value and a store. The filter of a load hides the secured bits as zeros; the check of the store
wants the hidden values back, or all ones at `IMR`. So a value that was loaded can only be stored
again if the secured bits are what the filter shows (`modify_iff`).
-/

namespace SeCloak
open Misc

/-! ## A word of a port -/

section

variable {env : Env} {s : Sys} {n : Nat} {p q : Port} {ty : HwType} {o : Word}

theorem withPort_withPort : (s.withPort n p).withPort n q = s.withPort n q := by
  unfold Sys.withPort
  simp only [Function.update_idem]

/-- A byte that goes to a register of the `n`-th port. -/
theorem writeByte_withPort (hty : s.gpio.hwtype = some ty) {pa : Word} {lane : Nat} {b : Byte}
    (hplace : (s.withPort n p).place env pa = .gpio n o lane) :
    (s.withPort n p).writeByte env pa b =
      s.withPort n { p with regs := p.regs.storeByte (hwData ty) o lane b } := by
  have htyp : (s.withPort n p).gpio.hwtype = some ty := hty
  have hport := withPort_port s n p
  unfold Sys.writeByte
  rw [hplace]
  dsimp only
  unfold Sys.writeGpio
  split
  · rename_i ty' p' hty' hp'
    obtain rfl := Option.some.inj (htyp.symm.trans hty')
    obtain rfl := Option.some.inj (hport.symm.trans hp')
    exact withPort_withPort
  · rename_i hno
    exact absurd hport (hno ty p htyp)

/-- The first bytes of a value, stored to a register. -/
def GpioRegs.storeLanes (hw : HwData) (r : GpioRegs) (o value : Word) (k : Nat) : GpioRegs :=
  (List.range k).foldl (fun r i => r.storeByte hw o i (getLane value i)) r

theorem GpioRegs.storeLanes_succ (hw : HwData) (r : GpioRegs) (o value : Word) (k : Nat) :
    r.storeLanes hw o value (k + 1) =
      (r.storeLanes hw o value k).storeByte hw o k (getLane value k) := by
  rw [storeLanes, List.range_succ, List.foldl_append]
  rfl

/-- A word store to a register of the `n`-th port. -/
theorem store_withPort {a : Access} {value : Word} (hty : s.gpio.hwtype = some ty)
    (hp : s.gpio.port n = some p)
    (hplace : ∀ i < a.size, s.place env (a.byte i) = .gpio n o i) :
    s.store env a value =
      s.withPort n { p with regs := p.regs.storeLanes (hwData ty) o value a.size } := by
  unfold Sys.store
  generalize a.size = k at hplace
  induction k with
  | zero => exact (withPort_self hp).symm
  | succ k ih =>
    rw [List.range_succ, List.foldl_append, List.foldl_cons, List.foldl_nil,
      ih fun i hi => hplace i (Nat.lt_succ_of_lt hi)]
    have hframe : ({ p with regs := p.regs.storeLanes (hwData ty) o value k } : Port).frame =
        p.frame := rfl
    rw [writeByte_withPort hty, GpioRegs.storeLanes_succ]
    rw [place_withPort hframe, withPort_self hp]
    exact hplace k (Nat.lt_succ_self k)

/-- The registers that a load-modify-store is about. -/
def HwData.Plain (hw : HwData) (o : Word) : Prop := o = hw.drReg ∨ o = hw.gdirReg ∨ o = hw.imrReg

theorem read_storeByte (ty : HwType) (r : GpioRegs) (h : (hwData ty).Plain o) (lane : Nat)
    (b : Byte) : (r.storeByte (hwData ty) o lane b).read (hwData ty) o =
      setLane (r.read (hwData ty) o) lane b := by
  rcases h with rfl | rfl | rfl <;> cases ty <;> rfl

theorem getLsbD_read_storeLanes (r : GpioRegs) (h : (hwData ty).Plain o) (value : Word) {k : Nat}
    (hk : k ≤ 4) (j : Nat) :
    ((r.storeLanes (hwData ty) o value k).read (hwData ty) o).getLsbD j =
      if j / 8 < k then value.getLsbD j else (r.read (hwData ty) o).getLsbD j := by
  induction k with
  | zero => simp [GpioRegs.storeLanes]
  | succ k ih =>
    rw [GpioRegs.storeLanes_succ, read_storeByte ty _ h, getLsbD_setLane_getLane (by omega),
      ih (by omega)]
    split_ifs <;> first | rfl | omega

/-- All four bytes of the register are replaced. -/
theorem read_storeLanes (r : GpioRegs) (h : (hwData ty).Plain o) (value : Word) :
    (r.storeLanes (hwData ty) o value 4).read (hwData ty) o = value := by
  apply BitVec.eq_of_getLsbD_eq
  intro j hj
  rw [getLsbD_read_storeLanes r h value (Nat.le_refl 4), if_pos (by omega)]

end

/-! ## The regions at a register -/

/-- A region that neither filters a load at the address nor refuses a store: to a port, there is no
register at the address. -/
def Region.Indifferent (r : Region) (s : Sys) (pa : Word) : Prop :=
  match r.check with
  | .allowAll => True
  | .denyAll => False
  | .fb => fbEmuCheck r pa .write = true
  | .gpio => ∀ ty, s.gpio.hwtype = some ty → ¬ (hwData ty).Has (pa - r.base)

/-- The word at the address is a register of the `n`-th port, and only the region of the port has a
say in it. -/
structure OwnRegister (env : Env) (s : Sys) (n : Nat) (r : Region) (pa : Word) : Prop where
  place : ∀ i < 4, s.place env (pa + BitVec.ofNat 32 i) = .gpio n (pa - r.base) i
  mem : r ∈ s.regions
  check : r.check = .gpio
  covers : r.covers pa
  others : ∀ q ∈ s.regions, q.covers pa → q = r ∨ q.Indifferent s pa

theorem plain_ne_isr {ty : HwType} {o : Word} (h : (hwData ty).Plain o) :
    o ≠ (hwData ty).isrReg := by
  rcases h with rfl | rfl | rfl <;> cases ty <;> decide

section

variable {s : Sys} {r : Region} {ty : HwType} {n : Nat} {p : Port} {pa v : Word}

theorem Region.Indifferent.masks (hty : s.gpio.hwtype = some ty) (h : r.Indifferent s pa) :
    r.masks s pa = (0, 0) := by
  unfold Region.Indifferent at h
  unfold Region.masks
  cases hc : r.check with
  | allowAll | denyAll | fb => rfl
  | gpio =>
    rw [hc] at h
    have hno : ¬ (hwData ty).Hides (pa - r.base) := fun hh => h ty hty (Or.inl hh)
    have hno' : ¬ (hwData ty).Shows (pa - r.base) := fun hs => hno (Or.inr (Or.inr hs))
    rw [hty]
    cases gpioPortFromAddress s.gpio r.base with
    | none => rfl
    | some np =>
      dsimp only
      rw [Port.masks, if_neg hno, if_neg hno']

theorem Region.Indifferent.admits (h : r.Indifferent s pa) : r.Admits s pa v := by
  unfold Region.Indifferent at h
  unfold Region.Admits
  cases hc : r.check with
  | allowAll => trivial
  | denyAll =>
    rw [hc] at h
    exact h
  | fb =>
    rw [hc] at h
    exact h
  | gpio =>
    rw [hc] at h
    intro ty n p hty _
    have hno := h ty hty
    simp only [HwData.Has, HwData.Hides, not_or] at hno
    obtain ⟨⟨hdr, hgdir, hisr, himr⟩, -, hicr1, hicr2, hedge⟩ := hno
    exact ⟨⟨(absurd · hdr), (absurd · hgdir), (absurd · himr), (absurd · hedge), (absurd · hicr1),
      (absurd · hicr2)⟩, (absurd · hisr)⟩

theorem Region.Indifferent.not_takesAck (h : r.Indifferent s pa) : ¬ r.TakesAck s pa v := by
  rintro ⟨hcheck, ty, n, p, hty, hport, hat, -⟩
  have hisr := ((Port.acksAt_base (gpioPortFromAddress_some hport).2).mp hat).1
  unfold Region.Indifferent at h
  rw [hcheck] at h
  exact h ty hty (Or.inl (Or.inr (Or.inr (Or.inl hisr))))

theorem filter_clears {m : Word} (h : r.masks s pa = (m, 0)) : r.filter s pa v = v &&& ~~~m := by
  rw [Region.filter, h]
  exact BitVec.or_zero

theorem filter_none (h : r.masks s pa = (0, 0)) : r.filter s pa v = v := by
  rw [Region.filter, h]
  exact and_not_zero_or_zero v

theorem and_not_and_not (v m : Word) : v &&& ~~~m &&& ~~~m = v &&& ~~~m := by
  rw [BitVec.and_assoc, BitVec.and_self]

/-- Filters that clear the same bits or nothing clear these bits if there is one that does. -/
theorem filterAll_same {rs : List Region} {m : Word}
    (h : ∀ q ∈ rs, q.covers pa → q.masks s pa = (m, 0) ∨ q.masks s pa = (0, 0)) :
    filterAll s pa rs (v &&& ~~~m) = v &&& ~~~m := by
  induction rs with
  | nil => rfl
  | cons q rs ih =>
    obtain ⟨hq, hrs⟩ := List.forall_mem_cons.mp h
    rw [filterAll]
    by_cases hcov : q.covers pa
    · rw [if_pos hcov]
      rcases hq hcov with hm | hm
      · rw [filter_clears hm, and_not_and_not]
        exact ih hrs
      · rw [filter_none hm]
        exact ih hrs
    · rw [if_neg hcov]
      exact ih hrs

theorem filterAll_clears {rs : List Region} {m : Word}
    (h : ∀ q ∈ rs, q.covers pa → q.masks s pa = (m, 0) ∨ q.masks s pa = (0, 0))
    (hr : r ∈ rs) (hcov : r.covers pa) (hm : r.masks s pa = (m, 0)) :
    filterAll s pa rs v = v &&& ~~~m := by
  induction rs generalizing v with
  | nil => cases hr
  | cons q rs ih =>
    obtain ⟨hq, hrs⟩ := List.forall_mem_cons.mp h
    rw [filterAll]
    rcases List.mem_cons.mp hr with rfl | hmem
    · rw [if_pos hcov, filter_clears hm]
      exact filterAll_same hrs
    · rw [ih hrs hmem]
      by_cases hqcov : q.covers pa
      · rw [if_pos hqcov]
        rcases hq hqcov with hqm | hqm
        · rw [filter_clears hqm, and_not_and_not]
        · rw [filter_none hqm]
      · rw [if_neg hqcov]

end

/-! ## Load and store -/

/-- A load changes nothing. -/
theorem emuHandle_load_state {env : Env} {ctx ctx' : NsecCtx} {status pa ia : Word} {rt : Rt}
    {size : Nat} {sign : Bool} {s s' : Sys} {w : List Event}
    (hacc : emuAccepts env s status pa ia = some (rt, .load size sign))
    (h : Code.Runs (emuHandle env ctx status pa ia) s w ctx' s') : s' = s := by
  rcases emuHandle_runs h with ⟨-, -, rfl⟩ | ⟨rt', op, v, w', hacc', hop, -, -⟩
  · rfl
  · rw [hacc] at hacc'
    obtain ⟨rfl, rfl⟩ := Prod.mk.inj (Option.some.inj hacc')
    exact (emuHandleLoad_runs hop).1

section

variable {env : Env} {s : Sys} {r : Region} {ty : HwType} {n : Nat} {p : Port} {pa : Word}

/-- What a word load of the register leaves. -/
theorem OwnRegister.load_value (own : OwnRegister env s n r pa) (hty : s.gpio.hwtype = some ty)
    (hport : gpioPortFromAddress s.gpio r.base = some (n, p))
    (hplain : (hwData ty).Plain (pa - r.base)) (hpassed : p.passedIrqMask = 0) {ctx ctx' : NsecCtx}
    {status ia : Word} {rt : Rt} {sign : Bool} {s' : Sys} {w : List Event}
    (hacc : emuAccepts env s status pa ia = some (rt, .load 4 sign))
    (h : Code.Runs (emuHandle env ctx status pa ia) s w ctx' s') :
    ctx'.get rt = p.regs.read (hwData ty) (pa - r.base) &&& ~~~p.secureMask := by
  have hp := (gpioPortFromAddress_some hport).1
  have hdeny : ¬ ∃ q ∈ s.regions, q.covers pa ∧ q.check = .denyAll := by
    rintro ⟨q, hq, hcov, hcheck⟩
    rcases own.others q hq hcov with rfl | hindiff
    · rw [own.check] at hcheck
      cases hcheck
    · unfold Region.Indifferent at hindiff
      rw [hcheck] at hindiff
      exact hindiff
  have hword : s.load env (env.data.access pa 4) = p.regs.read (hwData ty) (pa - r.base) := by
    apply BitVec.eq_of_getLsbD_eq
    intro j hj
    have hlt : j / 8 < 4 := by omega
    have hplace : (s.withPort n p).place env ((env.data.access pa 4).byte (j / 8)) =
        .gpio n (pa - r.base) (j / 8) := by
      rw [withPort_self hp]
      exact own.place (j / 8) hlt
    have hbyte := readByte_port hty hplace
    rw [withPort_self hp] at hbyte
    rw [getLsbD_load env s (Nat.le_refl 4), hbyte, getLsbD_getLane _ _ (Nat.mod_lt _ (by decide)),
      Nat.div_add_mod]
    have hin : decide (j / 8 < (env.data.access pa 4).size) = true := decide_eq_true hlt
    rw [hin, Bool.true_and]
  have hsign : sign = false := by
    have hnarrow := (emuAccepts_narrow hacc).2
    cases sign with
    | false => rfl
    | true => exact absurd (hnarrow rfl) (by decide)
  subst hsign
  have hmask : r.masks s pa = (p.secureMask, 0) := by
    have hhides : (hwData ty).Hides (pa - r.base) := by
      rcases hplain with h | h | h
      · exact Or.inl h
      · exact Or.inr (Or.inl h)
      · exact Or.inr (Or.inr (Or.inr h))
    unfold Region.masks
    rw [own.check, hty, hport]
    dsimp only
    rw [Port.masks, if_pos hhides, hpassed, ite_self]
  rw [(emuHandle_load_value hacc h).2 hdeny, hword]
  refine filterAll_clears (fun q hq hcov => ?_) own.mem own.covers hmask
  rcases own.others q hq hcov with rfl | hindiff
  · exact Or.inl hmask
  · exact Or.inr (hindiff.masks hty)

/-- A word store to the register is made exactly if the check of the port allows it, and replaces
the register. -/
theorem OwnRegister.store_value (own : OwnRegister env s n r pa) (hty : s.gpio.hwtype = some ty)
    (hport : gpioPortFromAddress s.gpio r.base = some (n, p))
    (hplain : (hwData ty).Plain (pa - r.base)) {ctx ctx' : NsecCtx} {status ia : Word} {rt : Rt}
    {s' : Sys} {w : List Event} (hacc : emuAccepts env s status pa ia = some (rt, .store 4))
    (h : Code.Runs (emuHandle env ctx status pa ia) s w ctx' s') :
    (.write (env.data.access pa 4) (ctx.get rt) ∈ w ↔
      p.Allows (hwData ty) (pa - r.base) (ctx.get rt)) ∧
    ∃ q, s'.gpio.port n = some q ∧ (p.Allows (hwData ty) (pa - r.base) (ctx.get rt) →
      q.regs.read (hwData ty) (pa - r.base) = ctx.get rt) := by
  have hp := (gpioPortFromAddress_some hport).1
  rcases emuHandle_runs h with ⟨hnone, -, -⟩ | ⟨rt', op, v, w', hacc', hop, rfl, -⟩
  · rw [hnone] at hacc
    cases hacc
  rw [hacc] at hacc'
  obtain ⟨rfl, rfl⟩ := Prod.mk.inj (Option.some.inj hacc')
  obtain ⟨ok, w₁, s₁, h₁, -, hres⟩ := emuHandleStore_runs hop
  change Code.Runs (emuCheckFrom pa .write s.regions (ctx.get rt)) s w₁ _ s₁ at h₁
  -- no region takes the store as an acknowledgement
  have hnoack : ackAny s s.regions pa .write (ctx.get rt) = false := by
    rw [ackAny_eq_false]
    intro q hq hcov
    apply Bool.eq_false_iff.mpr
    intro hack
    rcases own.others q hq hcov with rfl | hindiff
    · obtain ⟨-, ty', n', p', hty', hport', hat, -⟩ := acks_iff.mp hack
      obtain rfl := Option.some.inj (hty.symm.trans hty')
      exact plain_ne_isr hplain ((Port.acksAt_base (gpioPortFromAddress_some hport').2).mp hat).1
    · exact hindiff.not_takesAck (acks_iff.mp hack)
  obtain ⟨rfl, rfl, rfl⟩ := (emuCheckFrom_write h₁).2.1 hnoack
  have hok : permitAll s₁ s₁.regions pa .write (ctx.get rt) = true ↔
      p.Allows (hwData ty) (pa - r.base) (ctx.get rt) := by
    rw [permitAll_iff]
    constructor
    · intro hall
      have hadmits := hall r own.mem own.covers
      rw [Region.Admits, own.check] at hadmits
      exact (hadmits ty n p hty hport).1
    · intro hallows q hq hcov
      rcases own.others q hq hcov with rfl | hindiff
      · rw [Region.Admits, own.check]
        intro ty' n' p' hty' hport'
        obtain rfl := Option.some.inj (hty.symm.trans hty')
        obtain ⟨rfl, rfl⟩ := Prod.mk.inj (Option.some.inj (hport.symm.trans hport'))
        exact ⟨hallows, fun hisr => absurd hisr (plain_ne_isr hplain)⟩
      · exact hindiff.admits
  rcases hres with ⟨htrue, rfl, rfl⟩ | ⟨hfalse, rfl, rfl⟩
  · refine ⟨⟨fun _ => hok.mp htrue, fun _ => by simp⟩, ?_⟩
    have hstore := @store_withPort env s₁ n p ty (pa - r.base) (env.data.access pa 4) (ctx.get rt)
      hty hp own.place
    refine ⟨_, by rw [hstore]; exact withPort_port s₁ n _, fun _ => ?_⟩
    exact read_storeLanes p.regs hplain (ctx.get rt)
  · have hno : ¬ p.Allows (hwData ty) (pa - r.base) (ctx.get rt) := by
      intro hallows
      rw [hok.mpr hallows] at hfalse
      cases hfalse
    refine ⟨⟨fun hmem => ?_, fun hallows => absurd hallows hno⟩, p, hp, fun hallows =>
      absurd hallows hno⟩
    simp at hmem

end

/-! ## Load, modify, store -/

/-- What the check demands of a value for one of the three registers. -/
theorem allows_plain_iff {ty : HwType} {p : Port} {o v : Word} (h : (hwData ty).Plain o) :
    p.Allows (hwData ty) o v ↔
      if o = (hwData ty).imrReg then ~~~v &&& p.secureMask = 0
      else p.regs.read (hwData ty) o &&& p.secureMask = v &&& p.secureMask := by
  constructor
  · intro hok
    rcases h with rfl | rfl | rfl
    · have hdr := hok.dr rfl
      cases ty <;> exact hdr
    · have hgdir := hok.gdir rfl
      cases ty <;> exact hgdir
    · rw [if_pos rfl]
      exact hok.imr rfl
  · intro hok
    rcases h with rfl | rfl | rfl
    · refine ⟨fun _ => ?_, fun ho => ?_, fun ho => ?_, fun ho => ?_, fun ho => ?_, fun ho => ?_⟩ <;>
        cases ty <;> first | exact hok | exact absurd ho (by decide)
    · refine ⟨fun ho => ?_, fun _ => ?_, fun ho => ?_, fun ho => ?_, fun ho => ?_, fun ho => ?_⟩ <;>
        cases ty <;> first | exact hok | exact absurd ho (by decide)
    · rw [if_pos rfl] at hok
      refine ⟨fun ho => ?_, fun ho => ?_, fun _ => hok, fun ho => ?_, fun ho => ?_, fun ho => ?_⟩ <;>
        cases ty <;> exact absurd ho (by decide)

section

variable {old v m : Word}

/-- A change outside of the mask leaves the bits in the mask zero. -/
theorem and_eq_zero_of_change (h : (old &&& ~~~m ^^^ v) &&& m = 0) : v &&& m = 0 := by
  apply BitVec.eq_of_getLsbD_eq
  intro j hj
  have hbit := congrArg (fun z : Word => z.getLsbD j) h
  simp only [BitVec.getLsbD_and, BitVec.getLsbD_xor, BitVec.getLsbD_not, hj, decide_true,
    Bool.true_and] at hbit
  rw [BitVec.getLsbD_and, ← hbit]
  cases m.getLsbD j <;> simp

theorem change_hidden : old ^^^ (old &&& ~~~m ^^^ v) = (old &&& m) ^^^ v := by
  apply BitVec.eq_of_getLsbD_eq
  intro j hj
  simp only [BitVec.getLsbD_and, BitVec.getLsbD_xor, BitVec.getLsbD_not, hj, decide_true,
    Bool.true_and]
  cases old.getLsbD j <;> cases m.getLsbD j <;> simp

theorem not_and_eq_zero_iff (h : v &&& m = 0) : ~~~v &&& m = 0 ↔ m = 0 := by
  constructor
  · intro hnot
    apply BitVec.eq_of_getLsbD_eq
    intro j hj
    have hbit := congrArg (fun z : Word => z.getLsbD j) h
    have hbit' := congrArg (fun z : Word => z.getLsbD j) hnot
    simp only [BitVec.getLsbD_and, BitVec.getLsbD_not, hj, decide_true, Bool.true_and] at hbit hbit'
    cases hm : m.getLsbD j with
    | false => simp
    | true =>
      rw [hm, Bool.and_true] at hbit hbit'
      rw [hbit] at hbit'
      simp at hbit'
  · rintro rfl
    exact BitVec.and_zero

end

/-- A load of `DR`, `GDIR` or `IMR`, a change of unsecured pins and a store of the result have the
effect of the change exactly if the secured bits are zero, and at `IMR` if no pin is secured. -/
theorem modify_iff {env : Env} {ctx ctx₁ ctx₂ ctx' : NsecCtx} {status status' pa ia ia' : Word}
    {rt rt' : Rt} {sign : Bool} {s s₁ s' : Sys} {w w' : List Event} {ty : HwType} {r : Region}
    {n : Nat} {p : Port} (hty : s.gpio.hwtype = some ty)
    (hport : gpioPortFromAddress s.gpio r.base = some (n, p)) (own : OwnRegister env s n r pa)
    (hplain : (hwData ty).Plain (pa - r.base)) (hpassed : p.passedIrqMask = 0)
    (hload : emuAccepts env s status pa ia = some (rt, .load 4 sign))
    (h₁ : Code.Runs (emuHandle env ctx status pa ia) s w ctx₁ s₁)
    (hchange : (ctx₁.get rt ^^^ ctx₂.get rt') &&& p.secureMask = 0)
    (hstore : emuAccepts env s₁ status' pa ia' = some (rt', .store 4))
    (h₂ : Code.Runs (emuHandle env ctx₂ status' pa ia') s₁ w' ctx' s') :
    ∃ q, s'.gpio.port n = some q ∧
      ((.write (env.data.access pa 4) (ctx₂.get rt') ∈ w' ∧
          q.regs.read (hwData ty) (pa - r.base) = p.regs.read (hwData ty) (pa - r.base) ^^^
            (ctx₁.get rt ^^^ ctx₂.get rt')) ↔
        (if pa - r.base = (hwData ty).imrReg then p.secureMask
          else p.regs.read (hwData ty) (pa - r.base) &&& p.secureMask) = 0) := by
  have hvalue := own.load_value hty hport hplain hpassed hload h₁
  obtain rfl : s₁ = s := emuHandle_load_state hload h₁
  obtain ⟨hmade, q, hq, hnew⟩ := own.store_value hty hport hplain hstore h₂
  refine ⟨q, hq, ?_⟩
  rw [hvalue] at hchange ⊢
  have hzero := and_eq_zero_of_change hchange
  have hcond : p.Allows (hwData ty) (pa - r.base) (ctx₂.get rt') ↔
      (if pa - r.base = (hwData ty).imrReg then p.secureMask
        else p.regs.read (hwData ty) (pa - r.base) &&& p.secureMask) = 0 := by
    rw [allows_plain_iff hplain]
    split_ifs
    · exact not_and_eq_zero_iff hzero
    · rw [hzero]
  rw [hmade, hcond, and_iff_left_iff_imp]
  intro hfree
  have hold : p.regs.read (hwData ty) (pa - r.base) &&& p.secureMask = 0 := by
    split_ifs at hfree
    · rw [hfree]
      exact BitVec.and_zero
    · exact hfree
  rw [hnew (hcond.mpr hfree), change_hidden, hold]
  exact BitVec.zero_xor.symm

namespace Board

/-- `ldr r0, [r1]` and `str r0, [r1]` at the start of the non-secure memory. -/
def memModify : Word → Byte := fun a =>
  let word : Word := if (a - 0x10000000).toNat < 4 then ldr else 0xE5810000
  if (a - 0x10000000).toNat < 8 then word.extractLsb' (8 * ((a - 0x10000000).toNat % 4)) 8 else 0

/-- The board after boot, with both instructions. -/
def modifies : Sys :=
  (boot imx6 probes).after (resetSys (fun _ => 0) 0 zeroGic (fun _ => 0) (fun _ => 0) memModify)

/-- The second instruction traps. -/
def storeBack (pa value : Word) : Kernel NsecCtx :=
  emuHandle imx6 (ctxWith value) 0x008 pa 0x10000004

/-- Only the port is emulated, and each of its words is its own. -/
theorem modifies_own {pa : Word} (hcov : Region.covers ⟨0x0209C000, 0x4000, .gpio⟩ pa)
    (hplace : ∀ i < 4, modifies.place imx6 (pa + BitVec.ofNat 32 i) = .gpio 0 (pa - 0x0209C000) i) :
    OwnRegister imx6 modifies 0 ⟨0x0209C000, 0x4000, .gpio⟩ pa := by
  have hregions : modifies.regions = [⟨0x0209C000, 0x4000, .gpio⟩] := by decide +kernel
  refine ⟨hplace, ?_, rfl, hcov, fun q hq _ => ?_⟩
  · rw [hregions]
    exact List.mem_singleton.mpr rfl
  · rw [hregions] at hq
    exact Or.inl (List.mem_singleton.mp hq)

end Board

/-- Bit 7 of `DR` is set. -/
theorem modify_iff_dr :
    ∃ p q, gpioPortFromAddress Board.modifies.gpio 0x0209C000 = some (0, p) ∧
      ((Board.storeBack 0x0209C000 0x80).after Board.modifies).gpio.port 0 = some q ∧
      ((.write (imx6.data.access 0x0209C000 4) 0x80 ∈
          (Board.storeBack 0x0209C000 0x80 Board.modifies).events ∧
          q.regs.read (hwData .imx35) 0 = p.regs.read (hwData .imx35) 0 ^^^ (0 ^^^ 0x80)) ↔
        p.regs.read (hwData .imx35) 0 &&& p.secureMask = 0) := by
  have hfind : (gpioPortFromAddress Board.modifies.gpio 0x0209C000).map
      (fun np => (np.1, np.2.secureMask, np.2.passedIrqMask)) = some (0, 0x30, 0) := by
    decide +kernel
  obtain ⟨⟨n, p⟩, hport, hmasks⟩ := Option.map_eq_some_iff.mp hfind
  simp only [Prod.mk.injEq] at hmasks
  obtain ⟨rfl, hsec, hpassed⟩ := hmasks
  have hty : Board.modifies.gpio.hwtype = some .imx35 := by decide +kernel
  have hload : emuAccepts imx6 Board.modifies 0x008 0x0209C000 0x10000000 =
      some (.r 0, .load 4 false) := by decide +kernel
  have hstore : emuAccepts imx6 Board.modifies 0x008 0x0209C000 0x10000004 =
      some (.r 0, .store 4) := by decide +kernel
  have own := @Board.modifies_own 0x0209C000 (by decide) (by decide +kernel)
  obtain ⟨w₁, ctx₁, s₁, h₁, hget⟩ := Code.runs_of_out (m := Board.load 0x0209C000)
    (s := Board.modifies) (f := fun ctx => ctx.get (.r 0)) (b := 0) (by decide +kernel)
  obtain ⟨ctx', h₂⟩ := Code.runs_after (m := Board.storeBack 0x0209C000 0x80)
    (s := Board.modifies) (by decide +kernel)
  generalize (Board.storeBack 0x0209C000 0x80).after Board.modifies = s' at h₂ ⊢
  generalize (Board.storeBack 0x0209C000 0x80 Board.modifies).events = w' at h₂ ⊢
  unfold Board.load at h₁
  unfold Board.storeBack at h₂
  generalize Board.modifies = s at *
  obtain rfl : s₁ = s := emuHandle_load_state hload h₁
  have hchange : (ctx₁.get (.r 0) ^^^ (ctxWith 0x80).get (.r 0)) &&& p.secureMask = 0 := by
    rw [hget, hsec]
    decide
  have hplain : (hwData .imx35).Plain ((0x0209C000 : Word) - 0x0209C000) := Or.inl (by decide)
  obtain ⟨q, hq, hiff⟩ := modify_iff hty hport own hplain hpassed hload h₁ hchange hstore h₂
  refine ⟨p, q, hport, hq, ?_⟩
  rw [hget] at hiff
  exact hiff

/-- After boot the pins of the keys are secured, and no interrupt of the port can be enabled by
setting its bit in the value that was loaded from `IMR`: the store is not made. -/
theorem imr_not_modified :
    ∃ w₁ ctx₁ w₂ ctx₂, Code.Runs (Board.load 0x0209C014) Board.modifies w₁ ctx₁
        ((Board.load 0x0209C014).after Board.modifies) ∧ ctx₁.get (.r 0) = 0 ∧
      emuAccepts imx6 Board.modifies 0x008 0x0209C014 0x10000000 = some (.r 0, .load 4 false) ∧
      Code.Runs (Board.storeBack 0x0209C014 0x80) Board.modifies w₂ ctx₂
        ((Board.storeBack 0x0209C014 0x80).after Board.modifies) ∧
      emuAccepts imx6 Board.modifies 0x008 0x0209C014 0x10000004 = some (.r 0, .store 4) ∧
      w₂.length = 1 ∧
      (Board.modifies.gpio.port 0).map (fun p => (p.secureMask, p.passedIrqMask, p.regs.imr)) =
        some (0x30, 0, 0x30) ∧
      (((Board.storeBack 0x0209C014 0x80).after Board.modifies).gpio.port 0).map
        (fun p => p.regs.imr) = some 0x30 := by
  obtain ⟨w₁, ctx₁, s₁, h₁, hget⟩ := Code.runs_of_out (m := Board.load 0x0209C014)
    (s := Board.modifies) (f := fun ctx => ctx.get (.r 0)) (b := 0) (by decide +kernel)
  obtain ⟨ctx₂, h₂⟩ := Code.runs_after (m := Board.storeBack 0x0209C014 0x80)
    (s := Board.modifies) (by decide +kernel)
  rw [← h₁.succeeds_after.2] at h₁
  exact ⟨w₁, ctx₁, _, ctx₂, h₁, hget, by decide +kernel, h₂, by decide +kernel, by decide +kernel,
    by decide +kernel, by decide +kernel⟩

end SeCloak
