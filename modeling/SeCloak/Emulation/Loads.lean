import SeCloak.Emulation.Stores

/-!
# What an emulated load returns

A load is made of the bytes at its addresses, extended if it is signed, and then filtered by every
region that covers its first address. A filter clears some bits and sets others, which depend on the
masks of a port but not on its registers.
-/

namespace SeCloak
open Misc

/-! ## Bits of a load -/

theorem getLsbD_lanes (f : Nat → Byte) {n : Nat} (hn : n ≤ 4) (j : Nat) :
    ((List.range n).foldl (fun v i => v ||| laneBits i (f i)) (0 : Word)).getLsbD j =
      (decide (j / 8 < n) && (f (j / 8)).getLsbD (j % 8)) := by
  induction n with
  | zero => simp
  | succ n ih =>
    rw [List.range_succ, List.foldl_append, List.foldl_cons, List.foldl_nil, BitVec.getLsbD_or,
      ih (Nat.le_of_succ_le hn), getLsbD_laneBits hn]
    by_cases hj : j / 8 = n
    · simp [hj]
    · have hlt : j / 8 < n + 1 ↔ j / 8 < n := by omega
      simp [hj, hlt]

theorem getLsbD_load (env : Env) (s : Sys) {a : Access} (hsize : a.size ≤ 4) (j : Nat) :
    (s.load env a).getLsbD j =
      (decide (j / 8 < a.size) && (s.readByte env (a.byte (j / 8))).getLsbD (j % 8)) :=
  getLsbD_lanes (fun i => s.readByte env (a.byte i)) hsize j

theorem and_twoPow_ne_zero (v : Word) {i : Nat} (hi : i < 32) :
    v &&& BitVec.twoPow 32 i ≠ 0 ↔ v.getLsbD i = true := by
  rw [BitVec.and_twoPow]
  cases hv : v.getLsbD i with
  | false => simp
  | true =>
    have hne : BitVec.twoPow 32 i ≠ 0#32 := by
      intro h0
      have hbit := congrArg (fun z : Word => z.getLsbD i) h0
      simp [hi] at hbit
    simpa using hne

/-- The bits above a narrow value. -/
theorem getLsbD_or_high {v high : Word} {n : Nat}
    (hhigh : ∀ j < 32, high.getLsbD j = decide (n ≤ j)) (b : Bool) (j : Nat) :
    (if b = true then v ||| high else v).getLsbD j =
      (v.getLsbD j || (b && (decide (n ≤ j) && decide (j < 32)))) := by
  cases b with
  | false => simp
  | true =>
    rw [if_pos rfl, BitVec.getLsbD_or]
    by_cases hj : j < 32
    · rw [hhigh j hj]
      simp [hj]
    · rw [BitVec.getLsbD_of_ge high j (Nat.not_lt.mp hj)]
      simp [hj]

/-- A signed load copies its top bit upwards. -/
theorem getLsbD_emuSignExtend {v : Word} {size : Nat} {sign : Bool}
    (h : (EmuOp.load size sign).Narrow) (j : Nat) :
    (emuSignExtend v size sign).getLsbD j = (v.getLsbD j ||
      ((sign && v.getLsbD (8 * size - 1)) && (decide (8 * size ≤ j) && decide (j < 32)))) := by
  obtain ⟨hsize, hsign⟩ := h
  unfold emuSignExtend
  cases sign with
  | false => simp
  | true =>
    have htwo := hsign rfl
    have h80 : (v &&& 0x80 ≠ 0) = (v.getLsbD 7 = true) :=
      propext (and_twoPow_ne_zero v (by decide : 7 < 32))
    have h8000 : (v &&& 0x8000 ≠ 0) = (v.getLsbD 15 = true) :=
      propext (and_twoPow_ne_zero v (by decide : 15 < 32))
    rcases hsize with rfl | rfl | rfl
    · simp only [if_true, h80, Bool.true_and]
      exact getLsbD_or_high (by decide) _ j
    · simp only [if_true, h8000, Bool.true_and]
      exact getLsbD_or_high (by decide) _ j
    · omega

/-! ## Filters -/

/-- The registers that read as zero at the secured pins. -/
def HwData.Hides (hw : HwData) (o : Word) : Prop :=
  o = hw.drReg ∨ o = hw.gdirReg ∨ o = hw.isrReg ∨ o = hw.imrReg

instance (hw : HwData) : DecidablePred hw.Hides := fun _ => inferInstanceAs (Decidable (_ ∨ _))

/-- The registers that show the interrupts that were passed to the non-secure world. -/
def HwData.Shows (hw : HwData) (o : Word) : Prop := o = hw.isrReg ∨ o = hw.imrReg

instance (hw : HwData) : DecidablePred hw.Shows := fun _ => inferInstanceAs (Decidable (_ ∨ _))

/-- The bits that the filter of a port clears and those that it sets. -/
def Port.masks (hw : HwData) (p : Port) (o : Word) : Word × Word :=
  (if hw.Hides o then p.secureMask else 0, if hw.Shows o then p.passedIrqMask else 0)

/-- A filter that clears and sets nothing. -/
theorem and_not_zero_or_zero (v : Word) : (v &&& ~~~(0 : Word)) ||| 0 = v := by
  rw [show ~~~(0 : Word) = BitVec.allOnes 32 from rfl, BitVec.and_allOnes]
  exact BitVec.or_zero

theorem emuCheck_readAfter (ty : HwType) (p : Port) (o v : Word) :
    (p.emuCheck (hwData ty) o .readAfter v).value =
      (v &&& ~~~(p.masks (hwData ty) o).1) ||| (p.masks (hwData ty) o).2 := by
  unfold Port.emuCheck
  simp only [hideSecured, keepSecured]
  by_cases hhides : (hwData ty).Hides o
  · rcases hhides with rfl | rfl | rfl | rfl <;> cases ty <;>
      simp [hwData, Port.masks, HwData.Hides, HwData.Shows]
  · have hshows : ¬ (hwData ty).Shows o := fun hs => hhides (Or.inr (Or.inr hs))
    have hmasks : p.masks (hwData ty) o = (0, 0) := by
      rw [Port.masks, if_neg hhides, if_neg hshows]
    simp only [HwData.Hides, not_or] at hhides
    obtain ⟨hdr, hgdir, hisr, himr⟩ := hhides
    rw [if_neg hdr, if_neg hgdir, if_neg hisr, if_neg himr, hmasks, and_not_zero_or_zero]
    split_ifs <;> rfl

/-- The bits that the filter of a region clears and those that it sets. -/
def Region.masks (r : Region) (s : Sys) (address : Word) : Word × Word :=
  match r.check, s.gpio.hwtype, gpioPortFromAddress s.gpio r.base with
  | .gpio, some ty, some (_, p) => p.masks (hwData ty) (address - r.base)
  | _, _, _ => (0, 0)

/-- What the filter of a region leaves of a value. -/
def Region.filter (r : Region) (s : Sys) (address v : Word) : Word :=
  (v &&& ~~~(r.masks s address).1) ||| (r.masks s address).2

/-- What the filters of all regions that cover the address leave of a value. -/
def filterAll (s : Sys) (address : Word) : List Region → Word → Word
  | [], v => v
  | r :: rs, v => filterAll s address rs (if r.covers address then r.filter s address v else v)

theorem gpioEmuCheck_readAfter {r : Region} {address value value' : Word} {ok : Bool} {s s' : Sys}
    {w : List Event} (hcheck : r.check = .gpio)
    (h : Code.Runs (gpioEmuCheck r address .readAfter value) s w (ok, value') s') :
    value' = r.filter s address value := by
  obtain ⟨-, rfl, -⟩ := gpioEmuCheck_runs h
  unfold Sys.gpioVerdict Region.filter Region.masks
  rw [hcheck]
  cases s.gpio.hwtype with
  | none => exact (and_not_zero_or_zero value).symm
  | some ty =>
    cases gpioPortFromAddress s.gpio r.base with
    | none => exact (and_not_zero_or_zero value).symm
    | some np => exact emuCheck_readAfter ty np.2 (address - r.base) value

theorem runCheck_readAfter {r : Region} {address value value' : Word} {ok : Bool} {s s' : Sys}
    {w : List Event} (h : Code.Runs (r.runCheck address .readAfter value) s w (ok, value') s') :
    value' = r.filter s address value := by
  unfold Region.runCheck at h
  cases hc : r.check with
  | gpio =>
    simp only [hc] at h
    exact gpioEmuCheck_readAfter hc h
  | allowAll | denyAll | fb =>
    simp only [hc] at h
    obtain ⟨-, hv, -⟩ := Code.runs_pure.mp h
    obtain ⟨-, rfl⟩ := Prod.mk.inj hv
    rw [Region.filter, Region.masks, hc]
    exact (and_not_zero_or_zero value').symm

theorem emuCheckFrom_readAfter {address value value' : Word} {rs : List Region} {ok : Bool}
    {s s' : Sys} {w : List Event}
    (h : Code.Runs (emuCheckFrom address .readAfter rs value) s w (ok, value') s') :
    value' = filterAll s address rs value := by
  induction rs generalizing w value ok s with
  | nil =>
    obtain ⟨-, hv, -⟩ := Code.runs_pure.mp h
    exact (Prod.mk.inj hv).2
  | cons r rs ih =>
    rw [emuCheckFrom, Code.runs_ite] at h
    by_cases hr : r.covers address
    · rw [if_pos hr] at h
      obtain ⟨w₁, ⟨ok₁, v⟩, s₁, v₁, h₁, k₁, -⟩ := Code.runs_bind.mp h
      obtain ⟨w₂, ⟨ok₂, v'⟩, s₂, v₂, h₂, k₂, -⟩ := Code.runs_bind.mp k₁
      obtain ⟨-, hv, rfl⟩ := Code.runs_pure.mp k₂
      obtain ⟨-, rfl⟩ := Prod.mk.inj hv
      have hsame : s₁ = s := by
        obtain ⟨-, -, -, -, hack⟩ := runCheck_runs h₁
        rw [if_neg fun ha => absurd (acks_write ha) (by decide)] at hack
        exact hack.2
      obtain rfl := runCheck_readAfter h₁
      subst hsame
      rw [ih h₂, filterAll, if_pos hr]
    · rw [if_neg hr] at h
      rw [ih h, filterAll, if_neg hr]

/-- The value that a load leaves in its register. -/
theorem emuHandleLoad_value {env : Env} {a : Access} {sign : Bool} {v : Word} {s s' : Sys}
    {w : List Event} (h : Code.Runs (emuHandleLoad env a sign) s w v s') :
    ((∃ r ∈ s.regions, r.covers a.pa ∧ r.check = .denyAll) → v = 0) ∧
      ((¬ ∃ r ∈ s.regions, r.covers a.pa ∧ r.check = .denyAll) →
        v = filterAll s a.pa s.regions (emuSignExtend (s.load env a) a.size sign)) := by
  obtain ⟨w₁, ⟨ok, v₁⟩, s₁, w₂, h₁, h₂, rfl⟩ := Code.runs_bind.mp h
  rw [emuCheck, Code.runs_get_bind] at h₁
  obtain ⟨-, -, -, hread⟩ := emuCheckFrom_frame h₁
  have hok := emuCheckFrom_readBefore h₁
  obtain ⟨rfl, rfl⟩ := hread (by decide)
  dsimp only at h₂
  rw [Code.runs_ite] at h₂
  cases ok with
  | false =>
    obtain ⟨-, rfl, -⟩ := Code.runs_pure.mp h₂
    exact ⟨fun _ => rfl, fun hn => absurd (hok.mp rfl) hn⟩
  | true =>
    have hn : ¬ ∃ r ∈ s₁.regions, r.covers a.pa ∧ r.check = .denyAll := fun hex => by
      cases hok.mpr hex
    simp only [if_true] at h₂
    obtain ⟨w₃, h₃, rfl⟩ := memRead_bind.mp h₂
    obtain ⟨w₄, ⟨ok', v'⟩, s₄, w₅, h₄, h₅, rfl⟩ := Code.runs_bind.mp h₃
    rw [emuCheck, Code.runs_get_bind] at h₄
    obtain ⟨-, rfl, -⟩ := Code.runs_pure.mp h₅
    exact ⟨fun hex => absurd hex hn, fun _ => emuCheckFrom_readAfter h₄⟩

/-! ## Loads that are performed -/

/-- The check of a region cannot stop on a load: the layout of the registers is known, and either
the port is found or its registers are not looked at. -/
def Region.Answers (r : Region) (s : Sys) (address : Word) : Prop :=
  r.check = .gpio → ∃ ty, s.gpio.hwtype = some ty ∧
    ((gpioPortFromAddress s.gpio r.base).isSome = true ∨
      ∀ state, state ≠ .write → gpioReadsPort (hwData ty) (address - r.base) state = false)

theorem runCheck_read_answers {r : Region} {address value : Word} {state : EmuState} {s : Sys}
    {w : List Event} {e : Fault} (hstate : state ≠ .write) (hans : r.Answers s address) :
    ¬ Code.Stops (r.runCheck address state value) s w e := by
  intro h
  unfold Region.runCheck at h
  cases hc : r.check with
  | gpio =>
    obtain ⟨ty, hty, hport⟩ := hans hc
    simp only [hc] at h
    rw [gpioEmuCheck, Code.stops_get_bind] at h
    simp only [hty] at h
    cases hfind : gpioPortFromAddress s.gpio r.base with
    | none =>
      simp only [hfind] at h
      rw [Code.stops_require_bind] at h
      rcases h with ⟨hreads, -⟩ | ⟨-, h⟩
      · rcases hport with hsome | hno
        · rw [hfind] at hsome
          cases hsome
        · exact hreads (hno state hstate)
      · exact Code.stops_pure h
    | some np =>
      have hnack : (np.2.emuCheck (hwData ty) (address - r.base) state value).ack ≠ true :=
        fun hack => hstate (emuCheck_ack hack)
      simp only [hfind] at h
      rw [Code.runIf, if_neg hnack, Code.stops_pure_bind] at h
      exact Code.stops_pure h
  | allowAll | denyAll | fb =>
    simp only [hc] at h
    exact Code.stops_pure h

theorem emuCheckFrom_read_answers {address value : Word} {state : EmuState} {rs : List Region}
    {s : Sys} {w : List Event} {e : Fault} (hstate : state ≠ .write)
    (hans : ∀ r ∈ rs, r.covers address → r.Answers s address) :
    ¬ Code.Stops (emuCheckFrom address state rs value) s w e := by
  induction rs generalizing value w with
  | nil => exact fun h => Code.stops_pure h
  | cons r rs ih =>
    intro h
    obtain ⟨hr, hrs⟩ := List.forall_mem_cons.mp hans
    rw [emuCheckFrom, Code.stops_ite] at h
    by_cases hcov : r.covers address
    · rw [if_pos hcov] at h
      rcases Code.stops_bind.mp h with h₁ | ⟨w₁, x, s₁, w₂, h₁, h₂, -⟩
      · exact runCheck_read_answers hstate (hr hcov) h₁
      · obtain ⟨-, -, -, -, hack⟩ := runCheck_runs h₁
        rw [if_neg fun ha => hstate (acks_write ha)] at hack
        rw [hack.2] at h₂
        rcases Code.stops_bind.mp h₂ with h₃ | ⟨w₃, y, s₃, w₄, -, h₄, -⟩
        · exact ih hrs h₃
        · exact Code.stops_pure h₄
    · rw [if_neg hcov] at h
      exact ih hrs h

theorem memRead_stops {env : Env} {a : Access} {s : Sys} {w : List Event} {e : Fault} :
    ¬ Code.Stops (memRead env a) s w e := by
  intro h
  rcases Code.stops_bind.mp h with h₁ | ⟨w₁, x, s₁, w₂, -, h₂, -⟩
  · exact Code.stops_emit h₁
  · rw [Code.stops_get_bind] at h₂
    exact Code.stops_pure h₂

theorem memRead_runs {env : Env} {a : Access} {s s' : Sys} {w : List Event} {v : Word}
    (h : Code.Runs (memRead env a) s w v s') : s' = s := by
  rw [memRead, Code.runs_emit_bind] at h
  obtain ⟨w', h, -⟩ := h
  rw [Code.runs_get_bind, Code.runs_pure] at h
  exact h.2.2

/-- A load runs if no region stops on it. -/
theorem emuHandleLoad_answers {env : Env} {a : Access} {sign : Bool} {s : Sys}
    (hans : ∀ r ∈ s.regions, r.covers a.pa → r.Answers s a.pa) :
    ∃ w v s', Code.Runs (emuHandleLoad env a sign) s w v s' := by
  rcases Code.runs_or_stops (emuHandleLoad env a sign) s with ⟨v, s', h⟩ | ⟨e, h⟩
  · exact ⟨_, v, s', h⟩
  · exfalso
    rcases Code.stops_bind.mp h with h₁ | ⟨w₁, x, s₁, w₂, h₁, h₂, -⟩
    · rw [emuCheck, Code.stops_get_bind] at h₁
      exact emuCheckFrom_read_answers (by decide) hans h₁
    · obtain ⟨ok, v⟩ := x
      rw [emuCheck, Code.runs_get_bind] at h₁
      obtain ⟨-, rfl⟩ := (emuCheckFrom_frame h₁).2.2.2 (by decide)
      dsimp only at h₂
      cases ok with
      | false => exact Code.stops_pure h₂
      | true =>
        rw [if_pos rfl] at h₂
        rcases Code.stops_bind.mp h₂ with h₃ | ⟨w₃, u, s₃, w₄, h₃, h₄, -⟩
        · exact memRead_stops h₃
        · rw [memRead_runs h₃] at h₄
          rcases Code.stops_bind.mp h₄ with h₅ | ⟨w₅, y, s₅, w₆, -, h₆, -⟩
          · rw [emuCheck, Code.stops_get_bind] at h₅
            exact emuCheckFrom_read_answers (by decide) hans h₅
          · exact Code.stops_pure h₆

/-! ## Bits that a filter fixes -/

/-- The filter of a region leaves the same in a bit whatever was loaded. -/
def Region.Fixes (r : Region) (s : Sys) (address : Word) (j : Nat) : Prop :=
  (r.masks s address).1.getLsbD j = true ∨ (r.masks s address).2.getLsbD j = true

theorem getLsbD_filter (r : Region) (s : Sys) (address v : Word) {j : Nat} (hj : j < 32) :
    (r.filter s address v).getLsbD j =
      ((v.getLsbD j && !(r.masks s address).1.getLsbD j) || (r.masks s address).2.getLsbD j) := by
  simp only [Region.filter, BitVec.getLsbD_or, BitVec.getLsbD_and, BitVec.getLsbD_not, hj,
    decide_true, Bool.true_and]

/-- Bits that are not fixed pass through all filters. -/
theorem getLsbD_filterAll {s : Sys} {address : Word} {rs : List Region} {j : Nat} (hj : j < 32)
    (h : ∀ r ∈ rs, r.covers address → ¬ r.Fixes s address j) (v : Word) :
    (filterAll s address rs v).getLsbD j = v.getLsbD j := by
  induction rs generalizing v with
  | nil => rfl
  | cons r rs ih =>
    obtain ⟨hr, hrs⟩ := List.forall_mem_cons.mp h
    rw [filterAll, ih hrs]
    split
    · rename_i hcov
      have hfree := hr hcov
      simp only [Region.Fixes, not_or, Bool.not_eq_true] at hfree
      rw [getLsbD_filter r s address v hj, hfree.1, hfree.2]
      simp
    · rfl

section
variable {s t : Sys} {address : Word} {rs : List Region} {v u : Word} {j : Nat}

/-- Filters with the same masks keep equal bits equal. -/
theorem filterAll_bit_congr (hmasks : ∀ r ∈ rs, r.masks t address = r.masks s address)
    (hj : j < 32) (h : v.getLsbD j = u.getLsbD j) :
    (filterAll s address rs v).getLsbD j = (filterAll t address rs u).getLsbD j := by
  induction rs generalizing v u with
  | nil => exact h
  | cons r rs ih =>
    obtain ⟨hr, hrs⟩ := List.forall_mem_cons.mp hmasks
    apply ih hrs
    split
    · rw [getLsbD_filter _ _ _ _ hj, getLsbD_filter _ _ _ _ hj, hr, h]
    · exact h

/-- A bit that some filter fixes is equal after all of them. -/
theorem filterAll_bit_fixed (hmasks : ∀ r ∈ rs, r.masks t address = r.masks s address)
    (hj : j < 32) {r : Region} (hr : r ∈ rs) (hcov : r.covers address)
    (hfix : r.Fixes s address j) :
    (filterAll s address rs v).getLsbD j = (filterAll t address rs u).getLsbD j := by
  induction rs generalizing v u with
  | nil => cases hr
  | cons q rs ih =>
    obtain ⟨hq, hrs⟩ := List.forall_mem_cons.mp hmasks
    rcases List.mem_cons.mp hr with rfl | hr
    · apply filterAll_bit_congr hrs hj
      rw [if_pos hcov, if_pos hcov, getLsbD_filter _ _ _ _ hj, getLsbD_filter _ _ _ _ hj, hq]
      rcases hfix with hclear | hset
      · simp [hclear]
      · simp [hset]
    · exact ih hrs hr

end

end SeCloak
