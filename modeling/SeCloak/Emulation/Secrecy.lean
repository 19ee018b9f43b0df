import SeCloak.Emulation.Loads
import SeCloak.Emulation.Security

/-!
# What loads from a GPIO port tell

Two states of a port are alike for the non-secure world if they have the same masks and agree on the
pins that are not secured. The filter of a port clears the secured bits of a load that starts at a
register, after the value was narrowed and extended; it does nothing to a load that starts inside of
one. `load_hidden_iff` says which loads from the four filtered registers tell two alike states
apart.
-/

namespace SeCloak
open Misc

/-! ## Two states of a port -/

/-- The state with another state of the `n`-th port. -/
def Sys.withPort (s : Sys) (n : Nat) (p : Port) : Sys :=
  { s with gpio := { s.gpio with port := Function.update s.gpio.port n (some p) } }

theorem withPort_port (s : Sys) (n : Nat) (p : Port) : (s.withPort n p).gpio.port n = some p :=
  Function.update_self _ _ _

/-- What is fixed, and the masks that the filter uses. -/
def Port.frame (p : Port) : (Device × Word × Word × IrqDesc × Option IrqDesc × IrqDesc) × Word × Word :=
  (p.fixed, p.secureMask, p.passedIrqMask)

/-- The two states differ at secured pins only, in the registers that the filter hides. -/
structure Port.Alike (p q : Port) : Prop where
  frame : q.frame = p.frame
  dr : ∀ j, p.secureMask.getLsbD j = false → q.regs.dr.getLsbD j = p.regs.dr.getLsbD j
  gdir : ∀ j, p.secureMask.getLsbD j = false → q.regs.gdir.getLsbD j = p.regs.gdir.getLsbD j
  isr : ∀ j, p.secureMask.getLsbD j = false → q.regs.isr.getLsbD j = p.regs.isr.getLsbD j
  imr : ∀ j, p.secureMask.getLsbD j = false → q.regs.imr.getLsbD j = p.regs.imr.getLsbD j

theorem Port.pbase_of_frame {p q : Port} (h : q.frame = p.frame) : q.pbase = p.pbase :=
  congrArg (fun x => x.1.2.1) h

/-- There is a register at this word offset. -/
def HwData.Has (hw : HwData) (o : Word) : Prop :=
  hw.Hides o ∨ o = hw.psrReg ∨ o = hw.icr1Reg ∨ o = hw.icr2Reg ∨ o = BitVec.ofInt 32 hw.edgeSelReg

instance (hw : HwData) : DecidablePred hw.Has := fun _ => inferInstanceAs (Decidable (_ ∨ _))

/-- Alike ports agree on this bit of the byte at the offset `o` of their block: it belongs to an
unsecured pin in one of the four registers, or to no register. -/
def HwData.Agrees (hw : HwData) (m : Word) (o k : Nat) : Prop :=
  (hw.Hides (BitVec.ofNat 32 (o / 4 * 4)) ∧ m.getLsbD (8 * (o % 4) + k) = false) ∨
    ¬ hw.Has (BitVec.ofNat 32 (o / 4 * 4))

instance (hw : HwData) (m : Word) (o k : Nat) : Decidable (hw.Agrees m o k) :=
  inferInstanceAs (Decidable (_ ∨ _))

theorem read_alike {ty : HwType} {p q : Port} (h : p.Alike q) {o : Word} {j : Nat}
    (ho : ((hwData ty).Hides o ∧ p.secureMask.getLsbD j = false) ∨ ¬ (hwData ty).Has o) :
    (q.regs.read (hwData ty) o).getLsbD j = (p.regs.read (hwData ty) o).getLsbD j := by
  rcases ho with ⟨hhides, hj⟩ | hno
  · have hdr := h.dr j hj
    have hgdir := h.gdir j hj
    have hisr := h.isr j hj
    have himr := h.imr j hj
    rcases hhides with rfl | rfl | rfl | rfl <;> cases ty <;>
      simpa [hwData, GpioRegs.read] using (by assumption)
  · simp only [HwData.Has, HwData.Hides, not_or] at hno
    obtain ⟨⟨hdr, hgdir, hisr, himr⟩, hpsr, hicr1, hicr2, hedge⟩ := hno
    unfold GpioRegs.read
    rw [if_neg hdr, if_neg hgdir, if_neg hpsr, if_neg hicr1, if_neg hicr2, if_neg himr, if_neg hisr,
      if_neg hedge, if_neg hdr, if_neg hgdir, if_neg hpsr, if_neg hicr1, if_neg hicr2, if_neg himr,
      if_neg hisr, if_neg hedge]

section
variable {env : Env} {s : Sys} {n : Nat} {p q : Port}

theorem withPort_frame (h : q.frame = p.frame) (k : Nat) :
    ((s.withPort n q).gpio.port k).map Port.frame = ((s.withPort n p).gpio.port k).map Port.frame := by
  unfold Sys.withPort
  by_cases hk : k = n
  · subst hk
    simp [Function.update_self, h]
  · simp [Function.update_of_ne hk]

theorem gpioPortFromAddress_withPort (h : q.frame = p.frame) (base : Word) :
    (gpioPortFromAddress (s.withPort n q).gpio base).map (fun np => (np.1, np.2.frame)) =
      (gpioPortFromAddress (s.withPort n p).gpio base).map (fun np => (np.1, np.2.frame)) :=
  @gpioPortFromAddress_congr _ Port.frame (fun _ _ hpq => Port.pbase_of_frame hpq)
    (s.withPort n p).gpio (s.withPort n q).gpio rfl (withPort_frame h) base

theorem masks_withPort (h : q.frame = p.frame) (r : Region) (address : Word) :
    r.masks (s.withPort n q) address = r.masks (s.withPort n p) address := by
  have hfind := gpioPortFromAddress_withPort (s := s) (n := n) h r.base
  have hty : (s.withPort n q).gpio.hwtype = (s.withPort n p).gpio.hwtype := rfl
  unfold Region.masks
  rw [hty]
  cases r.check with
  | gpio =>
    cases (s.withPort n p).gpio.hwtype with
    | none => rfl
    | some ty =>
      generalize gpioPortFromAddress (s.withPort n q).gpio r.base = x' at hfind
      generalize gpioPortFromAddress (s.withPort n p).gpio r.base = x at hfind
      cases x' with
      | none =>
        cases x with
        | none => rfl
        | some np => cases hfind
      | some np' =>
        cases x with
        | none => cases hfind
        | some np =>
          obtain ⟨-, hframe⟩ := Prod.mk.inj (Option.some.inj hfind)
          have hsec : np'.2.secureMask = np.2.secureMask := congrArg (fun x => x.2.1) hframe
          have hpass : np'.2.passedIrqMask = np.2.passedIrqMask := congrArg (fun x => x.2.2) hframe
          simp only [Port.masks, hsec, hpass]
  | allowAll | denyAll | fb => rfl

theorem place_withPort (h : q.frame = p.frame) (pa : Word) :
    (s.withPort n q).place env pa = (s.withPort n p).place env pa := by
  have hgpio : gpioPlace (s.withPort n q).gpio pa = gpioPlace (s.withPort n p).gpio pa := by
    unfold gpioPlace
    congr 1
    funext k
    by_cases hk : k = n
    · subst hk
      simp [Sys.withPort, Function.update_self, Port.pbase_of_frame h]
    · simp [Sys.withPort, Function.update_of_ne hk]
  unfold Sys.place
  rw [hgpio]
  rfl

/-- The port that a place is in. -/
def Place.port : Place → Option Nat
  | .gpio n _ _ => some n
  | _ => none

/-- A byte that is not in the `n`-th port. -/
theorem readByte_withPort (h : q.frame = p.frame) {pa : Word}
    (hport : ((s.withPort n p).place env pa).port ≠ some n) :
    (s.withPort n q).readByte env pa = (s.withPort n p).readByte env pa := by
  unfold Sys.readByte
  rw [place_withPort h]
  generalize (s.withPort n p).place env pa = pl at hport
  cases pl with
  | gpio m reg lane =>
    have hm : m ≠ n := fun hm => hport (congrArg some hm)
    have hq : (s.withPort n q).gpio.port m = (s.withPort n p).gpio.port m := by
      simp only [Sys.withPort, Function.update_of_ne hm]
    have hty : (s.withPort n q).gpio.hwtype = (s.withPort n p).gpio.hwtype := rfl
    simp only [hq, hty]
  | csl m lane | sa lane | gicd bank m lane | ipriorityr it | itargetsr m lane | cpmem i lane
  | plain => rfl

/-- A byte of the block of the `n`-th port. -/
theorem readByte_port {ty : HwType} (hty : s.gpio.hwtype = some ty) {pa reg : Word} {lane : Nat}
    (hplace : (s.withPort n p).place env pa = .gpio n reg lane) :
    (s.withPort n p).readByte env pa = getLane (p.regs.read (hwData ty) reg) lane := by
  have htyp : (s.withPort n p).gpio.hwtype = some ty := hty
  unfold Sys.readByte
  rw [hplace]
  simp only [withPort_port, htyp]

/-- A byte of two alike states. -/
theorem readByte_alike {ty : HwType} (hty : s.gpio.hwtype = some ty) (h : p.Alike q) {pa : Word}
    {k : Nat} (hk : k < 8) (hagree : (pa - p.pbase).toNat < 0x40 →
      (hwData ty).Agrees p.secureMask (pa - p.pbase).toNat k) :
    ((s.withPort n q).readByte env pa).getLsbD k = ((s.withPort n p).readByte env pa).getLsbD k := by
  by_cases hport : ((s.withPort n p).place env pa).port = some n
  · rcases place_cases env (s.withPort n p) pa with hp | ⟨m, t, ht, ho, hp⟩ | hp
    · generalize (s.withPort n p).place env pa = pl at hp hport
      cases pl with
      | gpio m reg lane => exact absurd hp id
      | csl m lane | sa lane | gicd bank m lane | ipriorityr it | itargetsr m lane | cpmem i lane
      | plain => cases hport
    · rw [hp] at hport
      obtain rfl : m = n := Option.some.inj hport
      obtain rfl : p = t := Option.some.inj ((withPort_port s m p).symm.trans ht)
      rw [readByte_port hty hp, readByte_port hty ((place_withPort h.frame pa).trans hp),
        getLsbD_getLane _ _ hk, getLsbD_getLane _ _ hk]
      exact read_alike h (hagree ho)
    · rw [hp] at hport
      cases hport
  · rw [readByte_withPort h.frame hport]

end

/-! ## Loads that hide the secured pins -/

/-- A load of `size` bytes at the offset `off` from one of the four filtered registers hides the
secured pins. At a register the filter clears them; only a sign that comes from a secured pin goes to
bits above, each of which has to be secured or passed itself. Inside of a register nothing is
filtered. -/
def LoadHides (hw : HwData) (m q off : Word) (size : Nat) (sign : Bool) : Prop :=
  if hw.Hides off then
    ¬ (sign = true ∧ m.getLsbD (8 * size - 1) = true) ∨
      ∀ j < 32, 8 * size ≤ j → m.getLsbD j = true ∨ (hw.Shows off ∧ q.getLsbD j = true)
  else ∀ j < 8 * size, hw.Agrees m (off.toNat + j / 8) (j % 8)

instance (hw : HwData) (m q off : Word) (size : Nat) (sign : Bool) :
    Decidable (LoadHides hw m q off size sign) := inferInstanceAs (Decidable (ite _ _ _))

/-- A trapped load leaves the same in its register for all alike states of the `n`-th port that have
the frame of `p`. -/
def LoadHidden (env : Env) (ctx : NsecCtx) (status pa ia : Word) (rt : Rt) (size : Nat) (sign : Bool)
    (s : Sys) (n : Nat) (p : Port) : Prop :=
  ∀ p₁ p₂ : Port, p₁.frame = p.frame → p₁.Alike p₂ →
    emuAccepts env (s.withPort n p₁) status pa ia = some (rt, .load size sign) →
    emuAccepts env (s.withPort n p₂) status pa ia = some (rt, .load size sign) →
    ∀ w₁ w₂ ctx₁ ctx₂ s₁ s₂,
      Code.Runs (emuHandle env ctx status pa ia) (s.withPort n p₁) w₁ ctx₁ s₁ →
      Code.Runs (emuHandle env ctx status pa ia) (s.withPort n p₂) w₂ ctx₂ s₂ →
      ctx₁.get rt = ctx₂.get rt

/-- The value that a trapped load leaves in its register. -/
theorem emuHandle_load_value {env : Env} {ctx ctx' : NsecCtx} {status pa ia : Word} {rt : Rt}
    {size : Nat} {sign : Bool} {s s' : Sys} {w : List Event}
    (hacc : emuAccepts env s status pa ia = some (rt, .load size sign))
    (h : Code.Runs (emuHandle env ctx status pa ia) s w ctx' s') :
    ((∃ r ∈ s.regions, r.covers pa ∧ r.check = .denyAll) → ctx'.get rt = 0) ∧
      ((¬ ∃ r ∈ s.regions, r.covers pa ∧ r.check = .denyAll) → ctx'.get rt =
        filterAll s pa s.regions (emuSignExtend (s.load env (env.data.access pa size)) size sign)) := by
  rcases emuHandle_runs h with ⟨hnone, -, -⟩ | ⟨rt', op', v, w', hacc', hop, -, rfl⟩
  · rw [hnone] at hacc
    cases hacc
  rw [hacc] at hacc'
  obtain ⟨rfl, rfl⟩ := Prod.mk.inj (Option.some.inj hacc')
  rw [get_set]
  exact emuHandleLoad_value hop

/-- The offsets of the filtered registers. -/
theorem hides_lt {ty : HwType} {o : Word} (h : (hwData ty).Hides o) :
    o.toNat < 0x38 ∧ o.toNat % 4 = 0 := by
  rcases h with rfl | rfl | rfl | rfl <;> cases ty <;> decide

section
variable {env : Env} {s : Sys} {n : Nat} {p₁ p₂ : Port} {ty : HwType} {r : Region} {pa : Word}
  {size : Nat} {sign : Bool}

/-- A bit of the load is equal in both states, if the ports agree there. -/
theorem load_alike (hty : s.gpio.hwtype = some ty) (h : p₁.Alike p₂) (hsize : size ≤ 4)
    (hoff : (pa - p₁.pbase).toNat < 0x40) {j : Nat}
    (hagree : (hwData ty).Agrees p₁.secureMask ((pa - p₁.pbase).toNat + j / 8) (j % 8)) :
    ((s.withPort n p₁).load env (env.data.access pa size)).getLsbD j =
      ((s.withPort n p₂).load env (env.data.access pa size)).getLsbD j := by
  rw [getLsbD_load _ _ hsize, getLsbD_load _ _ hsize]
  by_cases hj : j / 8 < size
  · have hbyte : ((env.data.access pa size).byte (j / 8) - p₁.pbase).toNat =
        (pa - p₁.pbase).toNat + j / 8 := byte_offset (by
      change (pa - p₁.pbase).toNat + j / 8 < 2 ^ 32
      omega)
    rw [readByte_alike hty h (Nat.mod_lt _ (by decide))]
    intro _
    rw [hbyte]
    exact hagree
  · have hno : decide (j / 8 < (env.data.access pa size).size) = false := decide_eq_false hj
    rw [hno]
    rfl

/-- At a register, the bits of the unsecured pins are equal. -/
theorem agrees_of_hides {m off : Word} (hhides : (hwData ty).Hides off) {j : Nat} (hj : j < 32)
    (hm : m.getLsbD j = false) : (hwData ty).Agrees m (off.toNat + j / 8) (j % 8) := by
  obtain ⟨-, halign⟩ := hides_lt hhides
  have hreg : BitVec.ofNat 32 ((off.toNat + j / 8) / 4 * 4) = off := by
    rw [show (off.toNat + j / 8) / 4 * 4 = off.toNat by omega, BitVec.ofNat_toNat,
      BitVec.setWidth_eq]
  have hbit : 8 * ((off.toNat + j / 8) % 4) + j % 8 = j := by omega
  left
  rw [hreg, hbit]
  exact ⟨hhides, hm⟩

end

section
variable {env : Env} {s : Sys} {n : Nat} {p p₁ p₂ : Port} {ty : HwType} {r : Region} {pa : Word}

theorem withPort_self (hp : s.gpio.port n = some p) : s.withPort n p = s := by
  unfold Sys.withPort
  rw [← hp, Function.update_eq_self]

/-- The filter of the region of the port. -/
theorem masks_portRegion (hty : s.gpio.hwtype = some ty)
    (hport : gpioPortFromAddress s.gpio r.base = some (n, p)) (hcheck : r.check = .gpio)
    (hframe : p₁.frame = p.frame) :
    r.masks (s.withPort n p₁) pa = p₁.masks (hwData ty) (pa - r.base) := by
  have hself := withPort_self (gpioPortFromAddress_some hport).1
  have hfind := gpioPortFromAddress_withPort (s := s) (n := n) hframe r.base
  rw [hself, hport] at hfind
  obtain ⟨⟨m, t⟩, ht, hnt⟩ := Option.map_eq_some_iff.mp hfind
  obtain ⟨rfl, -⟩ := Prod.mk.inj hnt
  obtain rfl : p₁ = t :=
    Option.some.inj ((withPort_port s m p₁).symm.trans (gpioPortFromAddress_some ht).1)
  have hty₁ : (s.withPort m p₁).gpio.hwtype = some ty := hty
  unfold Region.masks
  rw [hcheck, hty₁, ht]

/-- A bit of the extended load is equal in both states, or the filter of the port fixes it. -/
theorem extended_alike {size : Nat} {sign : Bool} {m q : Word} (hty : s.gpio.hwtype = some ty)
    (hnarrow : (EmuOp.load size sign).Narrow) (halike : p₁.Alike p₂)
    (hoff : (pa - p₁.pbase).toNat < 0x38) (hsec : p₁.secureMask = m)
    (hh : LoadHides (hwData ty) m q (pa - p₁.pbase) size sign) {j : Nat} (hj : j < 32) :
    (emuSignExtend ((s.withPort n p₁).load env (env.data.access pa size)) size sign).getLsbD j =
        (emuSignExtend ((s.withPort n p₂).load env (env.data.access pa size)) size sign).getLsbD j ∨
      ((hwData ty).Hides (pa - p₁.pbase) ∧
        (m.getLsbD j = true ∨ ((hwData ty).Shows (pa - p₁.pbase) ∧ q.getLsbD j = true))) := by
  have hsize : size ≤ 4 := by
    have hsizes := hnarrow.1
    omega
  have hload : ∀ k, (hwData ty).Agrees m ((pa - p₁.pbase).toNat + k / 8) (k % 8) →
      ((s.withPort n p₁).load env (env.data.access pa size)).getLsbD k =
        ((s.withPort n p₂).load env (env.data.access pa size)).getLsbD k := by
    intro k hk
    exact load_alike hty halike hsize (by omega) (hsec ▸ hk)
  have hbeyond : ∀ k, 8 * size ≤ k → ∀ t : Sys,
      (t.load env (env.data.access pa size)).getLsbD k = false := by
    intro k hk t
    have hno : ¬ k / 8 < size := by omega
    rw [getLsbD_load _ _ hsize]
    simp [Window.access, hno]
  rw [getLsbD_emuSignExtend hnarrow, getLsbD_emuSignExtend hnarrow]
  unfold LoadHides at hh
  split at hh
  · rename_i hhides
    cases hm : m.getLsbD j with
    | true => exact Or.inr ⟨hhides, Or.inl rfl⟩
    | false =>
      rw [hload j (agrees_of_hides hhides hj hm)]
      by_cases htop : m.getLsbD (8 * size - 1) = true
      · -- the sign comes from a secured pin
        by_cases hlow : j < 8 * size
        · left
          simp [Nat.not_le.mpr hlow]
        · cases hsign : sign with
          | false => simp
          | true =>
            rcases hh with hno | hall
            · exact absurd ⟨hsign, htop⟩ hno
            · right
              rcases hall j hj (Nat.not_lt.mp hlow) with hmj | hshow
              · rw [hm] at hmj
                cases hmj
              · exact ⟨hhides, Or.inr hshow⟩
      · left
        rw [hload (8 * size - 1) (agrees_of_hides hhides (by omega) (by simpa using htop))]
  · left
    have hall : ∀ k, ((s.withPort n p₁).load env (env.data.access pa size)).getLsbD k =
        ((s.withPort n p₂).load env (env.data.access pa size)).getLsbD k := by
      intro k
      by_cases hk : k < 8 * size
      · exact hload k (hh k hk)
      · rw [hbeyond k (Nat.not_lt.mp hk), hbeyond k (Nat.not_lt.mp hk)]
    rw [hall, hall]

/-- A load that hides the secured pins leaves the same in its register, whatever other regions cover
the address. -/
theorem loadHidden_of_hides {ctx : NsecCtx} {status ia : Word} {rt : Rt} {size : Nat} {sign : Bool}
    (hty : s.gpio.hwtype = some ty) (hport : gpioPortFromAddress s.gpio r.base = some (n, p))
    (hr : r ∈ s.regions) (hcheck : r.check = .gpio) (hcov : r.covers pa)
    (hoff : (pa - r.base).toNat < 0x38)
    (hh : LoadHides (hwData ty) p.secureMask p.passedIrqMask (pa - r.base) size sign) :
    LoadHidden env ctx status pa ia rt size sign s n p := by
  intro p₁ p₂ hframe halike hacc₁ hacc₂ w₁ w₂ ctx₁ ctx₂ s₁ s₂ h₁ h₂
  have hbase : p₁.pbase = r.base :=
    (Port.pbase_of_frame hframe).trans (gpioPortFromAddress_some hport).2
  have hsec : p₁.secureMask = p.secureMask := congrArg (fun x => x.2.1) hframe
  have hpass : p₁.passedIrqMask = p.passedIrqMask := congrArg (fun x => x.2.2) hframe
  obtain ⟨hdeny₁, hval₁⟩ := emuHandle_load_value hacc₁ h₁
  obtain ⟨hdeny₂, hval₂⟩ := emuHandle_load_value hacc₂ h₂
  by_cases hden : ∃ r ∈ s.regions, r.covers pa ∧ r.check = .denyAll
  · rw [hdeny₁ hden, hdeny₂ hden]
  rw [hval₁ hden, hval₂ hden]
  have hmasks : ∀ q ∈ s.regions, q.masks (s.withPort n p₂) pa = q.masks (s.withPort n p₁) pa :=
    fun q _ => masks_withPort halike.frame q pa
  apply BitVec.eq_of_getLsbD_eq
  intro j hj
  rw [← hbase] at hoff hh
  rcases @extended_alike env _ n _ _ _ _ _ _ _ _ hty (emuAccepts_narrow hacc₁) halike hoff hsec hh _ hj
    with heq | ⟨hhides, hfix⟩
  · exact filterAll_bit_congr hmasks hj heq
  · apply filterAll_bit_fixed hmasks hj hr hcov
    unfold Region.Fixes
    rw [masks_portRegion hty hport hcheck hframe, Port.masks, ← hbase, if_pos hhides, hsec, hpass]
    rcases hfix with hm | ⟨hshows, hq⟩
    · exact Or.inl hm
    · right
      rw [if_pos hshows]
      exact hq

end

/-! ## Loads that tell two states apart -/

/-- The load is performed for every state of the port, no other region interferes with it, and the
block of the port is its own: the instruction is not fetched from it. -/
structure LoadAlone (env : Env) (status pa ia : Word) (rt : Rt) (size : Nat) (sign : Bool) (s : Sys)
    (n : Nat) (base : Word) : Prop where
  accepts : emuAccepts env s status pa ia = some (rt, .load size sign)
  fetch : ∀ i < 4, (s.place env ((env.instr.access ia 4).byte i)).port ≠ some n
  block : ∀ k < 0x40, s.place env (base + BitVec.ofNat 32 k) =
    .gpio n (BitVec.ofNat 32 (k / 4 * 4)) (k % 4)
  others : ∀ q ∈ s.regions, q.covers pa → q.check ≠ .denyAll ∧
    (q.check = .gpio → q.base = base ∨ 0x40 ≤ (pa - q.base).toNat)

theorem emuHandle_performs {env : Env} {ctx : NsecCtx} {status pa ia : Word} {rt : Rt} {size : Nat}
    {sign : Bool} {s : Sys} (hacc : emuAccepts env s status pa ia = some (rt, .load size sign))
    (hans : ∀ r ∈ s.regions, r.covers pa → r.Answers s pa) :
    ∃ w ctx' s', Code.Runs (emuHandle env ctx status pa ia) s w ctx' s' := by
  obtain ⟨w, v, s', hload⟩ :=
    @emuHandleLoad_answers env (env.data.access pa size) sign s hans
  unfold emuAccepts at hacc
  split at hacc
  · rename_i hcond
    obtain ⟨hst, hd, hi⟩ := hcond
    dsimp only at hacc
    refine ⟨.fetch (env.instr.access ia 4) :: (w ++ []), ctx.set rt v, s', ?_⟩
    unfold emuHandle
    rw [if_neg (not_not.mpr hst), if_neg (not_not.mpr hd), if_neg (not_not.mpr hi)]
    refine memFetch_bind.mpr ⟨w ++ [], ?_, rfl⟩
    cases hrt : emuRt (s.load env (env.instr.access ia 4)) with
    | none => simp [hrt] at hacc
    | some rt' =>
      cases hop : emuDecode (s.load env (env.instr.access ia 4)) with
      | none => simp [hrt, hop] at hacc
      | some op =>
        simp only [hrt, hop, Option.some.injEq, Prod.mk.injEq] at hacc
        obtain ⟨rfl, rfl⟩ := hacc
        exact Code.runs_bind.mpr ⟨w, v, s', [], hload, Code.runs_pure.mpr ⟨rfl, rfl, rfl⟩, rfl⟩
  · cases hacc

/-- All registers zero but the one at `o`. -/
def GpioRegs.single (hw : HwData) (o v : Word) : GpioRegs where
  dr := if o = hw.drReg then v else 0
  gdir := if o = hw.gdirReg then v else 0
  psr := if o = hw.psrReg then v else 0
  icr1 := if o = hw.icr1Reg then v else 0
  icr2 := if o = hw.icr2Reg then v else 0
  imr := if o = hw.imrReg then v else 0
  isr := if o = hw.isrReg then v else 0
  edgeSel := if o = BitVec.ofInt 32 hw.edgeSelReg then v else 0

theorem read_single {hw : HwData} {o v : Word} (h : hw.Has o) :
    (GpioRegs.single hw o v).read hw o = v := by
  have hif : ∀ (p : Prop) [Decidable p] (x : Word),
      (if p then (if p then v else 0) else x) = if p then v else x := by
    intro p _ x
    split <;> rfl
  simp only [HwData.Has, HwData.Hides] at h
  simp only [GpioRegs.read, GpioRegs.single, hif]
  split_ifs with h₀ h₁ h₂ h₃ h₄ h₅ h₆ h₇
  all_goals first
    | rfl
    | (exfalso; tauto)

theorem read_zero (hw : HwData) (o : Word) : ({} : GpioRegs).read hw o = 0 := by
  simp only [GpioRegs.read, ite_self]

/-- The port with all registers zero. -/
def Port.cleared (p : Port) : Port := { p with regs := {} }

/-- The port with all registers zero but for one bit. -/
def Port.single (hw : HwData) (p : Port) (o : Word) (k : Nat) : Port :=
  { p with regs := GpioRegs.single hw o (BitVec.twoPow 32 k) }

theorem Port.single_frame (p : Port) (hw : HwData) (o : Word) (k : Nat) :
    (p.single hw o k).frame = p.frame := rfl

/-- A port with one bit set in a secured place is alike to the one with none. -/
theorem single_alike {p : Port} {hw : HwData} {o : Word} {k : Nat}
    (h : hw.Hides o → p.secureMask.getLsbD k = true) :
    p.cleared.Alike (p.single hw o k) := by
  have hreg : ∀ reg, hw.Hides reg → ∀ j, p.secureMask.getLsbD j = false →
      (if o = reg then BitVec.twoPow 32 k else (0 : Word)).getLsbD j = (0 : Word).getLsbD j := by
    intro reg hhides j hj
    split
    · rename_i ho
      have hk := h (ho ▸ hhides)
      have hne : k ≠ j := by
        intro hkj
        rw [hkj, hj] at hk
        cases hk
      simp [BitVec.getLsbD_twoPow, hne]
    · rfl
  exact ⟨rfl, hreg _ (Or.inl rfl), hreg _ (Or.inr (Or.inl rfl)), hreg _ (Or.inr (Or.inr (Or.inl rfl))),
    hreg _ (Or.inr (Or.inr (Or.inr rfl)))⟩

section
variable {env : Env} {s : Sys} {n : Nat} {p p₁ p₂ : Port} {ty : HwType} {r : Region}
  {status pa ia : Word} {rt : Rt} {size : Nat} {sign : Bool}

/-- What is known of the load holds for every state of the port. -/
theorem LoadAlone.accepts_withPort (h : LoadAlone env status pa ia rt size sign s n r.base)
    (hp : s.gpio.port n = some p) (hframe : p₁.frame = p.frame) :
    emuAccepts env (s.withPort n p₁) status pa ia = some (rt, .load size sign) := by
  have hload : (s.withPort n p₁).load env (env.instr.access ia 4) =
      s.load env (env.instr.access ia 4) := by
    apply BitVec.eq_of_getLsbD_eq
    intro j hj
    rw [getLsbD_load _ _ (Nat.le_refl 4), getLsbD_load _ _ (Nat.le_refl 4)]
    have hbyte := @readByte_withPort env s n _ _ hframe ((env.instr.access ia 4).byte (j / 8))
    rw [withPort_self hp] at hbyte
    rw [hbyte (h.fetch (j / 8) (by omega))]
  have hacc := h.accepts
  unfold emuAccepts at hacc ⊢
  rw [hload]
  exact hacc

theorem LoadAlone.answers (h : LoadAlone env status pa ia rt size sign s n r.base)
    (hty : s.gpio.hwtype = some ty) (hport : gpioPortFromAddress s.gpio r.base = some (n, p))
    (hframe : p₁.frame = p.frame) :
    ∀ q ∈ (s.withPort n p₁).regions, q.covers pa → q.Answers (s.withPort n p₁) pa := by
  intro q hq hcov hcheck
  refine ⟨ty, hty, ?_⟩
  rcases (h.others q hq hcov).2 hcheck with hbase | hfar
  · left
    have hself := withPort_self (gpioPortFromAddress_some hport).1
    have hfind := gpioPortFromAddress_withPort (s := s) (n := n) hframe q.base
    rw [hself, hbase, hport] at hfind
    rw [hbase]
    obtain ⟨x, hx, -⟩ := Option.map_eq_some_iff.mp hfind
    rw [hx]
    rfl
  · right
    intro state hstate
    unfold gpioReadsPort
    have hno : ∀ reg : Word, reg.toNat < 0x40 → pa - q.base ≠ reg := by
      intro reg hlt heq
      rw [heq] at hfar
      omega
    have hregs : (hwData ty).drReg.toNat < 0x40 ∧ (hwData ty).gdirReg.toNat < 0x40 ∧
        (hwData ty).isrReg.toNat < 0x40 ∧ (hwData ty).imrReg.toNat < 0x40 ∧
        (hwData ty).icr1Reg.toNat < 0x40 ∧ (hwData ty).icr2Reg.toNat < 0x40 := by
      cases ty <;> decide
    obtain ⟨h₀, h₁, h₂, h₃, h₄, h₅⟩ := hregs
    simp [hno _ h₀, hno _ h₁, hno _ h₂, hno _ h₃, hno _ h₄, hno _ h₅, hstate]

/-- No region that covers the address fixes a bit that the filter of the port leaves. -/
theorem LoadAlone.not_fixes (h : LoadAlone env status pa ia rt size sign s n r.base)
    (hty : s.gpio.hwtype = some ty) (hport : gpioPortFromAddress s.gpio r.base = some (n, p))
    (hframe : p₁.frame = p.frame) {j : Nat}
    (hfree : ¬ ((hwData ty).Hides (pa - r.base) ∧ (p.secureMask.getLsbD j = true ∨
      ((hwData ty).Shows (pa - r.base) ∧ p.passedIrqMask.getLsbD j = true)))) :
    ∀ q ∈ (s.withPort n p₁).regions, q.covers pa → ¬ q.Fixes (s.withPort n p₁) pa j := by
  intro q hq hcov hfix
  by_cases hcheck : q.check = .gpio
  · rcases (h.others q hq hcov).2 hcheck with hbase | hfar
    · have hsec : p₁.secureMask = p.secureMask := congrArg (fun x => x.2.1) hframe
      have hpass : p₁.passedIrqMask = p.passedIrqMask := congrArg (fun x => x.2.2) hframe
      unfold Region.Fixes at hfix
      rw [masks_portRegion hty (hbase ▸ hport) hcheck hframe, Port.masks, hbase, hsec, hpass] at hfix
      apply hfree
      by_cases hhides : (hwData ty).Hides (pa - r.base)
      · refine ⟨hhides, ?_⟩
        rw [if_pos hhides] at hfix
        rcases hfix with hm | hshow
        · exact Or.inl hm
        · right
          split at hshow
          · rename_i hshows
            exact ⟨hshows, hshow⟩
          · simp at hshow
      · have hshows : ¬ (hwData ty).Shows (pa - r.base) :=
          fun hs => hhides (Or.inr (Or.inr hs))
        rw [if_neg hhides, if_neg hshows] at hfix
        simp at hfix
    · -- behind the registers nothing is filtered
      have hhides : ∀ o : Word, 0x40 ≤ o.toNat → ¬ (hwData ty).Hides o := by
        intro o ho hh
        have hlt := (hides_lt hh).1
        omega
      have hty₁ : (s.withPort n p₁).gpio.hwtype = some ty := hty
      unfold Region.Fixes Region.masks at hfix
      rw [hcheck, hty₁] at hfix
      cases hfind : gpioPortFromAddress (s.withPort n p₁).gpio q.base with
      | none =>
        rw [hfind] at hfix
        simp at hfix
      | some np =>
        have hno := hhides _ hfar
        have hno' : ¬ (hwData ty).Shows (pa - q.base) := fun hs => hno (Or.inr (Or.inr hs))
        rw [hfind] at hfix
        simp only [Port.masks, if_neg hno, if_neg hno'] at hfix
        simp at hfix
  · unfold Region.Fixes Region.masks at hfix
    cases hc : q.check with
    | gpio => exact hcheck hc
    | allowAll | denyAll | fb =>
      rw [hc] at hfix
      simp at hfix

/-- A bit of a load from the block of the port. -/
theorem LoadAlone.load_bit (h : LoadAlone env status pa ia rt size sign s n r.base)
    (hty : s.gpio.hwtype = some ty) (hp : s.gpio.port n = some p) (hframe : p₁.frame = p.frame)
    (hoff : (pa - r.base).toNat < 0x38) {j : Nat} (hj : j < 8 * size) :
    ((s.withPort n p₁).load env (env.data.access pa size)).getLsbD j =
      (p₁.regs.read (hwData ty) (BitVec.ofNat 32 (((pa - r.base).toNat + j / 8) / 4 * 4))).getLsbD
        (8 * (((pa - r.base).toNat + j / 8) % 4) + j % 8) := by
  have hsize : size ≤ 4 := by
    have hsizes := (emuAccepts_narrow h.accepts).1
    omega
  have haddr : (env.data.access pa size).byte (j / 8) =
      r.base + BitVec.ofNat 32 ((pa - r.base).toNat + j / 8) := by
    change pa + BitVec.ofNat 32 (j / 8) = _
    bv_omega
  have hplace : (s.withPort n p₁).place env ((env.data.access pa size).byte (j / 8)) =
      .gpio n (BitVec.ofNat 32 (((pa - r.base).toNat + j / 8) / 4 * 4))
        (((pa - r.base).toNat + j / 8) % 4) := by
    rw [place_withPort hframe, withPort_self hp, haddr]
    exact h.block _ (by omega)
  have hlt : j / 8 < (env.data.access pa size).size := by
    change j / 8 < size
    omega
  rw [getLsbD_load _ _ hsize, decide_eq_true hlt, Bool.true_and, readByte_port hty hplace,
    getLsbD_getLane _ _ (Nat.mod_lt _ (by decide))]

/-- A load of which a bit is set in one of two alike states tells them apart. -/
theorem LoadAlone.not_hidden {ctx : NsecCtx}
    (h : LoadAlone env status pa ia rt size sign s n r.base) (hty : s.gpio.hwtype = some ty)
    (hport : gpioPortFromAddress s.gpio r.base = some (n, p)) (hoff : (pa - r.base).toNat < 0x38)
    {o : Word} {k j : Nat} (hsecured : (hwData ty).Hides o → p.secureMask.getLsbD k = true)
    (hj : j < 32)
    (hfree : ¬ ((hwData ty).Hides (pa - r.base) ∧ (p.secureMask.getLsbD j = true ∨
      ((hwData ty).Shows (pa - r.base) ∧ p.passedIrqMask.getLsbD j = true))))
    (hset : (emuSignExtend ((s.withPort n (p.single (hwData ty) o k)).load env
      (env.data.access pa size)) size sign).getLsbD j = true) :
    ¬ LoadHidden env ctx status pa ia rt size sign s n p := by
  intro hhidden
  obtain ⟨hp, -⟩ := gpioPortFromAddress_some hport
  have hframe₁ : p.cleared.frame = p.frame := rfl
  have hframe₂ := p.single_frame (hwData ty) o k
  have halike : p.cleared.Alike (p.single (hwData ty) o k) :=
    single_alike hsecured
  have hacc₁ := h.accepts_withPort hp hframe₁
  have hacc₂ := h.accepts_withPort hp hframe₂
  have hnarrow := emuAccepts_narrow h.accepts
  obtain ⟨w₁, ctx₁, s₁, h₁⟩ := @emuHandle_performs _ ctx _ _ _ _ _ _ _ hacc₁ (h.answers hty hport hframe₁)
  obtain ⟨w₂, ctx₂, s₂, h₂⟩ := @emuHandle_performs _ ctx _ _ _ _ _ _ _ hacc₂ (h.answers hty hport hframe₂)
  have heq := hhidden p.cleared _ rfl halike hacc₁ hacc₂ _ _ _ _ _ _ h₁ h₂
  have hallow : ¬ ∃ q ∈ s.regions, q.covers pa ∧ q.check = .denyAll := by
    rintro ⟨q, hq, hcov, hdeny⟩
    exact (h.others q hq hcov).1 hdeny
  rw [(emuHandle_load_value hacc₁ h₁).2 hallow, (emuHandle_load_value hacc₂ h₂).2 hallow] at heq
  have hbit := congrArg (fun v : Word => v.getLsbD j) heq
  rw [getLsbD_filterAll hj (h.not_fixes hty hport hframe₁ hfree),
    getLsbD_filterAll hj (h.not_fixes hty hport hframe₂ hfree), hset] at hbit
  -- with all registers zero nothing is read
  have hzero : ∀ i, ((s.withPort n p.cleared).load env
      (env.data.access pa size)).getLsbD i = false := by
    intro i
    by_cases hi : i < 8 * size
    · rw [h.load_bit hty hp hframe₁ hoff hi, Port.cleared, read_zero]
      simp
    · have hsize : size ≤ 4 := by
        have hsizes := hnarrow.1
        omega
      have hno : ¬ i / 8 < size := by omega
      rw [getLsbD_load _ _ hsize]
      simp [Window.access, hno]
  rw [getLsbD_emuSignExtend hnarrow, hzero, hzero] at hbit
  simp at hbit

/-- A load from one of the four filtered registers hides the secured pins only if `LoadHides` says
so. -/
theorem LoadAlone.hides {ctx : NsecCtx} (h : LoadAlone env status pa ia rt size sign s n r.base)
    (hty : s.gpio.hwtype = some ty) (hport : gpioPortFromAddress s.gpio r.base = some (n, p))
    (hoff : (pa - r.base).toNat < 0x38)
    (hhidden : LoadHidden env ctx status pa ia rt size sign s n p) :
    LoadHides (hwData ty) p.secureMask p.passedIrqMask (pa - r.base) size sign := by
  obtain ⟨hp, -⟩ := gpioPortFromAddress_some hport
  have hnarrow := emuAccepts_narrow h.accepts
  have hsize : 0 < size ∧ size ≤ 4 := by
    have hsizes := hnarrow.1
    omega
  by_contra hno
  unfold LoadHides at hno
  split at hno
  · -- the sign of a secured pin reaches a bit that is not filtered
    rename_i hhides
    obtain ⟨hlt, halign⟩ := hides_lt hhides
    simp only [not_or, not_not, not_forall] at hno
    obtain ⟨⟨hsign, htop⟩, j, hj, hhigh, hfree⟩ := hno
    refine h.not_hidden hty hport hoff (o := pa - r.base) (k := 8 * size - 1) (fun _ => htop) hj
      (fun hbad => ?_) ?_ hhidden
    · rcases hbad.2 with hm | hshow
      · exact hfree.1 hm
      · exact hfree.2 hshow
    · have hreg : BitVec.ofNat 32 (((pa - r.base).toNat + (8 * size - 1) / 8) / 4 * 4) =
          pa - r.base := by
        rw [show ((pa - r.base).toNat + (8 * size - 1) / 8) / 4 * 4 = (pa - r.base).toNat by omega,
          BitVec.ofNat_toNat, BitVec.setWidth_eq]
      have hbit : 8 * (((pa - r.base).toNat + (8 * size - 1) / 8) % 4) + (8 * size - 1) % 8 =
          8 * size - 1 := by omega
      have hread : ((s.withPort n (p.single (hwData ty) (pa - r.base) (8 * size - 1))).load env
          (env.data.access pa size)).getLsbD (8 * size - 1) = true := by
        rw [h.load_bit hty hp (Port.single_frame p _ _ _) hoff (by omega), hreg, hbit, Port.single,
          read_single (Or.inl hhides), BitVec.getLsbD_twoPow]
        simp
        omega
      rw [getLsbD_emuSignExtend hnarrow, hread, hsign]
      simp [hhigh, hj]
  · -- a bit inside of a register is not filtered
    rename_i hhides
    simp only [not_forall] at hno
    obtain ⟨j, hj, hdiffer⟩ := hno
    unfold HwData.Agrees at hdiffer
    simp only [not_or, not_not] at hdiffer
    obtain ⟨hsecured, hhas⟩ := hdiffer
    refine h.not_hidden hty hport hoff (j := j)
      (o := BitVec.ofNat 32 (((pa - r.base).toNat + j / 8) / 4 * 4))
      (k := 8 * (((pa - r.base).toNat + j / 8) % 4) + j % 8) (fun hh => ?_) (by omega)
      (fun hbad => hhides hbad.1) ?_ hhidden
    · by_contra hm
      exact hsecured ⟨hh, by simpa using hm⟩
    · have hread : ((s.withPort n (p.single (hwData ty)
          (BitVec.ofNat 32 (((pa - r.base).toNat + j / 8) / 4 * 4))
          (8 * (((pa - r.base).toNat + j / 8) % 4) + j % 8))).load env
          (env.data.access pa size)).getLsbD j = true := by
        rw [h.load_bit hty hp (Port.single_frame p _ _ _) hoff hj, Port.single, read_single hhas,
          BitVec.getLsbD_twoPow]
        simp
        omega
      rw [getLsbD_emuSignExtend hnarrow, hread]
      simp

end

/-- The address is in one of the four registers that the filter of a port hides. -/
theorem offset_lt {ty : HwType} {off : Word}
    (h : (hwData ty).Hides (BitVec.ofNat 32 (off.toNat / 4 * 4))) : off.toNat < 0x38 := by
  obtain ⟨hlt, -⟩ := hides_lt h
  rw [BitVec.toNat_ofNat] at hlt
  have hoff := off.isLt
  omega

/-- A load at an address in one of the four filtered registers of a port hides the secured pins if
`LoadHides` says so, whatever other regions there are, and only then if no other region interferes
with it. -/
theorem load_hidden_iff {env : Env} {ctx : NsecCtx} {status pa ia : Word} {rt : Rt} {size : Nat}
    {sign : Bool} {s : Sys} {n : Nat} {p : Port} {ty : HwType} {r : Region}
    (hty : s.gpio.hwtype = some ty) (hport : gpioPortFromAddress s.gpio r.base = some (n, p))
    (hr : r ∈ s.regions) (hcheck : r.check = .gpio) (hcov : r.covers pa)
    (hreg : (hwData ty).Hides (BitVec.ofNat 32 ((pa - r.base).toNat / 4 * 4))) :
    (LoadHides (hwData ty) p.secureMask p.passedIrqMask (pa - r.base) size sign →
      LoadHidden env ctx status pa ia rt size sign s n p) ∧
    (LoadAlone env status pa ia rt size sign s n r.base →
      LoadHidden env ctx status pa ia rt size sign s n p →
      LoadHides (hwData ty) p.secureMask p.passedIrqMask (pa - r.base) size sign) :=
  ⟨loadHidden_of_hides hty hport hr hcheck hcov (offset_lt hreg),
    fun halone hhidden => halone.hides hty hport (offset_lt hreg) hhidden⟩

namespace Board

/-- `ldr r0, [r1]`, `ldrsb r0, [r1]` and `ldrb r0, [r1]`. -/
def ldr : Word := 0xE5910000
def ldrsb : Word := 0xE1D100D0
def ldrb : Word := 0xE5D10000

end Board

/-- Nothing interferes with `ldr r0, [r1]` at `DR`. -/
theorem load_hidden_word :
    ∃ p, gpioPortFromAddress (Board.pinSecured Board.ldr 7).gpio 0x0209C000 = some (0, p) ∧
      LoadHidden imx6 (ctxWith 0) 0x008 0x0209C000 0x10000000 (.r 0) 4 false
        (Board.pinSecured Board.ldr 7) 0 p ∧
      LoadHides (hwData .imx35) p.secureMask p.passedIrqMask (0x0209C000 - 0x0209C000) 4 false := by
  have hfind : (gpioPortFromAddress (Board.pinSecured Board.ldr 7).gpio 0x0209C000).map Prod.fst =
      some 0 := by decide +kernel
  obtain ⟨⟨n, p⟩, hport, rfl⟩ := Option.map_eq_some_iff.mp hfind
  have halone : LoadAlone imx6 0x008 0x0209C000 0x10000000 (.r 0) 4 false
      (Board.pinSecured Board.ldr 7) 0 0x0209C000 :=
    ⟨by decide +kernel, by decide +kernel, by decide +kernel, by decide +kernel⟩
  have hhides : LoadHides (hwData .imx35) p.secureMask p.passedIrqMask (0x0209C000 - 0x0209C000) 4
      false := by
    rw [LoadHides, if_pos (by decide)]
    exact Or.inl fun hsign => absurd hsign.1 (by decide)
  have hboth := @load_hidden_iff imx6 (ctxWith 0) 0x008 0x0209C000 0x10000000 (.r 0) 4 false _ _ _
    .imx35 ⟨0x0209C000, 0x4000, .gpio⟩ (by decide +kernel) hport (by decide +kernel) rfl (by decide)
    (by decide)
  have hhidden := hboth.1 hhides
  exact ⟨p, hport, hhidden, hboth.2 halone hhidden⟩

/-- A port with another content of `DR`. -/
def Port.withDr (p : Port) (dr : Word) : Port := { p with regs := { p.regs with dr := dr } }

theorem withDr_alike {p : Port} {dr dr' : Word}
    (h : ∀ j, p.secureMask.getLsbD j = false → dr'.getLsbD j = dr.getLsbD j) :
    (p.withDr dr).Alike (p.withDr dr') :=
  ⟨rfl, h, fun _ _ => rfl, fun _ _ => rfl, fun _ _ => rfl⟩

namespace Board

/-- The board with an instruction, a secured pin, and a content of `DR`. -/
def withDr (instr : Word) (pin : Nat) (dr : Word) : Sys :=
  match (pinSecured instr pin).gpio.port 0 with
  | some p => (pinSecured instr pin).withPort 0 (p.withDr dr)
  | none => pinSecured instr pin

/-- A load from the board. -/
def load (pa : Word) : Kernel NsecCtx := emuHandle imx6 (ctxWith 0) 0x008 pa 0x10000000

/-- Two alike states of the port for which a load leaves different values. -/
def Tells (instr : Word) (pin : Nat) (pa : Word) : Prop :=
  ∃ p dr dr' ctx₁ ctx₂ w₁ w₂ s₁ s₂, (pinSecured instr pin).gpio.port 0 = some p ∧
    (p.withDr dr).Alike (p.withDr dr') ∧
    Code.Runs (load pa) ((pinSecured instr pin).withPort 0 (p.withDr dr)) w₁ ctx₁ s₁ ∧
    Code.Runs (load pa) ((pinSecured instr pin).withPort 0 (p.withDr dr')) w₂ ctx₂ s₂ ∧
    ctx₁.get (.r 0) ≠ ctx₂.get (.r 0)

/-- Such a pair, from the values that are read. -/
theorem tells_of_values {instr pa v v' : Word} {pin : Nat}
    (hsec : ((pinSecured instr pin).gpio.port 0).map (·.secureMask.getLsbD pin) = some true)
    (hv : ((load pa).out (withDr instr pin 0)).map (fun x => x.1.get (.r 0)) = some v)
    (hv' : ((load pa).out (withDr instr pin (BitVec.twoPow 32 pin))).map (fun x => x.1.get (.r 0)) =
      some v')
    (hne : v ≠ v') : Tells instr pin pa := by
  obtain ⟨p, hp, hm⟩ := Option.map_eq_some_iff.mp hsec
  have hstate : ∀ dr, withDr instr pin dr = (pinSecured instr pin).withPort 0 (p.withDr dr) := by
    intro dr
    unfold withDr
    rw [hp]
  obtain ⟨w₁, ctx₁, s₁, h₁, hget⟩ := Code.runs_of_out (f := fun ctx : NsecCtx => ctx.get (.r 0)) hv
  obtain ⟨w₂, ctx₂, s₂, h₂, hget'⟩ := Code.runs_of_out (f := fun ctx : NsecCtx => ctx.get (.r 0)) hv'
  rw [hstate] at h₁ h₂
  refine ⟨p, 0, BitVec.twoPow 32 pin, ctx₁, ctx₂, w₁, w₂, s₁, s₂, hp, ?_, h₁, h₂, ?_⟩
  · apply withDr_alike
    intro j hj
    have hne : pin ≠ j := by
      intro hpj
      rw [hpj, hj] at hm
      cases hm
    simp [BitVec.getLsbD_twoPow, hne]
  · rw [hget, hget']
    exact hne

end Board

/-- A signed byte load of `DR` tells pin 7, and a byte load at `DR + 1` tells pin 9. -/
theorem secured_pin_read :
    Board.Tells Board.ldrsb 7 0x0209C000 ∧ Board.Tells Board.ldrb 9 0x0209C001 := by
  constructor
  · exact @Board.tells_of_values _ _ 0 0xFFFFFF00 _ (by decide +kernel) (by decide +kernel)
      (by decide +kernel) (by decide)
  · exact @Board.tells_of_values _ _ 0 2 _ (by decide +kernel) (by decide +kernel)
      (by decide +kernel) (by decide)

end SeCloak
