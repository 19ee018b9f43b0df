import SeCloak.Emulation.Handle

/-!
# What the emulator answers and what it touches

The verdict of a region and whether it acknowledges an interrupt are functions of the state
before the access (`Region.permits`, `Region.acks`). `emu_check` is the conjunction of the
verdicts as long as no region acknowledges, and only a store can be an acknowledgement.
-/

namespace SeCloak
open Misc

/-! ## Single regions -/

/-- What `gpio_emu_check` finds in the state: the layout of the registers and the port. -/
def Sys.gpioVerdict (s : Sys) (r : Region) (address : Word) (state : EmuState) (value : Word) :
    Verdict :=
  match s.gpio.hwtype, gpioPortFromAddress s.gpio r.base with
  | some ty, some (_, p) => p.emuCheck (hwData ty) (address - r.base) state value
  | _, _ => { value := value }

/-- The verdict of a region in the state `s`. -/
def Region.permits (r : Region) (s : Sys) (address : Word) (state : EmuState) (value : Word) :
    Bool :=
  match r.check with
  | .allowAll => true
  | .denyAll => false
  | .gpio => (s.gpioVerdict r address state value).allowed
  | .fb => fbEmuCheck r address state

/-- The access acknowledges interrupts that were passed to the non-secure world. -/
def Region.acks (r : Region) (s : Sys) (address : Word) (state : EmuState) (value : Word) : Bool :=
  match r.check with
  | .gpio => (s.gpioVerdict r address state value).ack
  | _ => false

/-- The write to `IMR` that an acknowledgement makes. -/
def Region.ackAccess (r : Region) (s : Sys) : Access :=
  match s.gpio.hwtype, gpioPortFromAddress s.gpio r.base with
  | some ty, some (_, p) => ⟨p.base + (hwData ty).imrReg, p.pbase + (hwData ty).imrReg, 4⟩
  | _, _ => ⟨0, 0, 0⟩

theorem emuCheck_ack {hw : HwData} {p : Port} {offset value : Word} {state : EmuState}
    (h : (p.emuCheck hw offset state value).ack = true) : state = .write := by
  cases state with
  | write => rfl
  | readBefore | readAfter =>
    unfold Port.emuCheck at h
    simp only [hideSecured, keepSecured] at h
    split_ifs at h

theorem emuCheck_value_write (hw : HwData) (p : Port) (offset value : Word) :
    (p.emuCheck hw offset .write value).value = value := by
  unfold Port.emuCheck
  simp only [hideSecured, keepSecured]
  split_ifs <;> rfl

theorem emuCheck_readBefore (hw : HwData) (p : Port) (offset value : Word) :
    (p.emuCheck hw offset .readBefore value).allowed = true := by
  unfold Port.emuCheck
  simp only [hideSecured, keepSecured]
  split_ifs <;> rfl

theorem acks_write {r : Region} {s : Sys} {address value : Word} {state : EmuState}
    (h : r.acks s address state value = true) : state = .write := by
  unfold Region.acks Sys.gpioVerdict at h
  split at h
  · split at h
    · exact emuCheck_ack h
    · cases h
  · cases h

/-- Only `emu_deny_all` refuses a load. -/
theorem permits_readBefore (r : Region) (s : Sys) (address value : Word) :
    r.permits s address .readBefore value = false ↔ r.check = .denyAll := by
  have hgpio : (s.gpioVerdict r address .readBefore value).allowed = true := by
    unfold Sys.gpioVerdict
    split
    · exact emuCheck_readBefore _ _ _ _
    · rfl
  unfold Region.permits
  cases r.check with
  | allowAll => simp
  | denyAll => simp
  | gpio => simp [hgpio]
  | fb => simp [fbEmuCheck]

theorem gpioEmuCheck_runs {r : Region} {address value value' : Word} {state : EmuState}
    {ok : Bool} {s s' : Sys} {w : List Event}
    (h : Code.Runs (gpioEmuCheck r address state value) s w (ok, value') s') :
    ok = (s.gpioVerdict r address state value).allowed ∧
      value' = (s.gpioVerdict r address state value).value ∧ BusOnly s s' ∧ s'.csu = s.csu ∧
      if (s.gpioVerdict r address state value).ack = true then
        ∃ v, w = [.write (r.ackAccess s) v]
      else w = [] ∧ s' = s := by
  rw [gpioEmuCheck, Code.runs_get_bind] at h
  unfold Sys.gpioVerdict Region.ackAccess
  cases hty : s.gpio.hwtype with
  | none => simp [hty] at h
  | some ty =>
    simp only [hty] at h
    cases hport : gpioPortFromAddress s.gpio r.base with
    | none =>
      simp only [hport] at h
      rw [Code.runs_require_bind, Code.runs_pure] at h
      obtain ⟨-, rfl, hv, rfl⟩ := h
      obtain ⟨rfl, rfl⟩ := Prod.mk.inj hv
      exact ⟨rfl, rfl, BusOnly.refl _, rfl, by simp⟩
    | some np =>
      obtain ⟨n, p⟩ := np
      simp only [hport] at h
      obtain ⟨w₁, _, s₁, w₂, h₁, h₂, rfl⟩ := Code.runs_bind.mp h
      obtain ⟨rfl, hv, rfl⟩ := Code.runs_pure.mp h₂
      obtain ⟨rfl, rfl⟩ := Prod.mk.inj hv
      refine ⟨rfl, rfl, ?_⟩
      rcases Code.runs_runIf.mp h₁ with ⟨hack, h₁⟩ | ⟨hack, rfl, rfl⟩
      · obtain ⟨w₃, _, s₃, w₄, h₃, h₄, rfl⟩ := Code.runs_bind.mp h₁
        obtain ⟨rfl, q, hq, rfl⟩ := modifyPort_runs h₃
        obtain ⟨rfl, rfl⟩ := Code.runs_emit.mp h₄
        refine ⟨busOnly_port hq rfl, rfl, ?_⟩
        rw [if_pos hack]
        exact ⟨_, rfl⟩
      · refine ⟨BusOnly.refl _, rfl, ?_⟩
        rw [if_neg hack]
        exact ⟨rfl, rfl⟩

theorem runCheck_runs {r : Region} {address value value' : Word} {state : EmuState} {ok : Bool}
    {s s' : Sys} {w : List Event}
    (h : Code.Runs (r.runCheck address state value) s w (ok, value') s') :
    ok = r.permits s address state value ∧ (state = .write → value' = value) ∧ BusOnly s s' ∧
      s'.csu = s.csu ∧
      if r.acks s address state value = true then ∃ v, w = [.write (r.ackAccess s) v]
      else w = [] ∧ s' = s := by
  unfold Region.runCheck at h
  unfold Region.permits Region.acks
  cases hc : r.check with
  | gpio =>
    simp only [hc] at h
    obtain ⟨hok, hv, hbus, hcsu, hack⟩ := gpioEmuCheck_runs h
    refine ⟨hok, fun hst => ?_, hbus, hcsu, hack⟩
    subst hst
    rw [hv]
    unfold Sys.gpioVerdict
    split
    · exact emuCheck_value_write _ _ _ _
    · rfl
  | allowAll | denyAll | fb =>
    simp only [hc] at h
    obtain ⟨rfl, hv, rfl⟩ := Code.runs_pure.mp h
    obtain ⟨rfl, rfl⟩ := Prod.mk.inj hv
    exact ⟨rfl, fun _ => rfl, BusOnly.refl _, rfl, by simp⟩

/-! ## All regions -/

/-- All regions of the list that cover the address permit the access. -/
def permitAll (s : Sys) (rs : List Region) (address : Word) (state : EmuState) (value : Word) :
    Bool :=
  rs.all fun r => !decide (r.covers address) || r.permits s address state value

/-- Some region of the list that covers the address acknowledges. -/
def ackAny (s : Sys) (rs : List Region) (address : Word) (state : EmuState) (value : Word) : Bool :=
  rs.any fun r => decide (r.covers address) && r.acks s address state value

theorem permitAll_cons (s : Sys) (r : Region) (rs : List Region) (address value : Word)
    (state : EmuState) : permitAll s (r :: rs) address state value =
      ((!decide (r.covers address) || r.permits s address state value) &&
        permitAll s rs address state value) := rfl

theorem ackAny_cons (s : Sys) (r : Region) (rs : List Region) (address value : Word)
    (state : EmuState) : ackAny s (r :: rs) address state value =
      ((decide (r.covers address) && r.acks s address state value) ||
        ackAny s rs address state value) := rfl

theorem permitAll_eq_false {s : Sys} {rs : List Region} {address value : Word}
    {state : EmuState} : permitAll s rs address state value = false ↔
      ∃ r ∈ rs, r.covers address ∧ r.permits s address state value = false := by
  simp [permitAll]

theorem ackAny_eq_false {s : Sys} {rs : List Region} {address value : Word}
    {state : EmuState} : ackAny s rs address state value = false ↔
      ∀ r ∈ rs, r.covers address → r.acks s address state value = false := by
  simp [ackAny]

/-- The events of a check are the writes of acknowledgements by regions that cover the address. -/
def AckWrites (s : Sys) (rs : List Region) (address : Word) (w : List Event) : Prop :=
  ∀ e ∈ w, ∃ r ∈ rs, r.covers address ∧ r.check = .gpio ∧ ∃ v, e = .write (r.ackAccess s) v

theorem ackAccess_busOnly {s s' : Sys} (h : BusOnly s s') (r : Region) :
    r.ackAccess s' = r.ackAccess s := by
  have hty : s'.gpio.hwtype = s.gpio.hwtype := by rw [h.rest]
  have hports : s'.gpio.ports = s.gpio.ports := by rw [h.rest]
  have hfind := gpioPortFromAddress_fixed hports h.fixed r.base
  unfold Region.ackAccess
  rw [hty]
  cases s.gpio.hwtype with
  | none => rfl
  | some ty =>
    generalize gpioPortFromAddress s'.gpio r.base = x' at hfind
    generalize gpioPortFromAddress s.gpio r.base = x at hfind
    cases x' with
    | none =>
      cases x with
      | none => rfl
      | some np => cases hfind
    | some np' =>
      cases x with
      | none => cases hfind
      | some np =>
        obtain ⟨-, hfix⟩ := Prod.mk.inj (Option.some.inj hfind)
        have hb : np'.2.base = np.2.base := congrArg (fun x => x.2.2.1) hfix
        have hpb : np'.2.pbase = np.2.pbase := congrArg (fun x => x.2.1) hfix
        simp only [hb, hpb]

/-- What holds of every check. -/
theorem emuCheckFrom_frame {address value : Word} {state : EmuState} {rs : List Region}
    {res : Bool × Word} {s s' : Sys} {w : List Event}
    (h : Code.Runs (emuCheckFrom address state rs value) s w res s') :
    BusOnly s s' ∧ s'.csu = s.csu ∧ AckWrites s rs address w ∧
      (state ≠ .write → w = [] ∧ s' = s) := by
  induction rs generalizing s w value res with
  | nil =>
    obtain ⟨rfl, -, rfl⟩ := Code.runs_pure.mp h
    refine ⟨BusOnly.refl _, rfl, ?_, fun _ => ⟨rfl, rfl⟩⟩
    intro e he
    cases he
  | cons r rs ih =>
    rw [emuCheckFrom, Code.runs_ite] at h
    by_cases hr : r.covers address
    · rw [if_pos hr] at h
      obtain ⟨w₁, ⟨ok, v⟩, s₁, v₁, h₁, k₁, rfl⟩ := Code.runs_bind.mp h
      obtain ⟨w₂, ⟨ok', v'⟩, s₂, v₂, h₂, k₂, rfl⟩ := Code.runs_bind.mp k₁
      obtain ⟨rfl, -, rfl⟩ := Code.runs_pure.mp k₂
      obtain ⟨-, -, hbus₁, hcsu₁, hack₁⟩ := runCheck_runs h₁
      obtain ⟨hbus₂, hcsu₂, hack₂, hread₂⟩ := ih h₂
      refine ⟨hbus₁.trans hbus₂, hcsu₂.trans hcsu₁, ?_, fun hst => ?_⟩
      · intro e he
        rw [List.append_nil] at he
        rcases List.mem_append.mp he with he | he
        · by_cases ha : r.acks s address state value = true
          · rw [if_pos ha] at hack₁
            obtain ⟨x, rfl⟩ := hack₁
            have hgpio : r.check = .gpio := by
              unfold Region.acks at ha
              split at ha
              · assumption
              · cases ha
            exact ⟨r, List.mem_cons_self, hr, hgpio, x, by simpa using he⟩
          · rw [if_neg ha] at hack₁
            rw [hack₁.1] at he
            cases he
        · obtain ⟨q, hq, hcov, hgpio, x, rfl⟩ := hack₂ e he
          exact ⟨q, List.mem_cons_of_mem _ hq, hcov, hgpio, x, by rw [ackAccess_busOnly hbus₁]⟩
      · obtain ⟨rfl, rfl⟩ := hread₂ hst
        have ha : ¬ r.acks s address state value = true := fun ha => hst (acks_write ha)
        rw [if_neg ha] at hack₁
        obtain ⟨rfl, rfl⟩ := hack₁
        exact ⟨rfl, rfl⟩
    · rw [if_neg hr] at h
      obtain ⟨hbus, hcsu, hack, hread⟩ := ih h
      refine ⟨hbus, hcsu, fun e he => ?_, hread⟩
      obtain ⟨q, hq, rest⟩ := hack e he
      exact ⟨q, List.mem_cons_of_mem _ hq, rest⟩

/-- A load is refused by the regions with `emu_deny_all` and by no other. -/
theorem emuCheckFrom_readBefore {address value value' : Word} {rs : List Region} {ok : Bool}
    {s s' : Sys} {w : List Event}
    (h : Code.Runs (emuCheckFrom address .readBefore rs value) s w (ok, value') s') :
    ok = false ↔ ∃ r ∈ rs, r.covers address ∧ r.check = .denyAll := by
  induction rs generalizing s w value ok value' with
  | nil =>
    obtain ⟨-, hv, -⟩ := Code.runs_pure.mp h
    obtain ⟨rfl, -⟩ := Prod.mk.inj hv
    simp
  | cons r rs ih =>
    rw [emuCheckFrom, Code.runs_ite] at h
    by_cases hr : r.covers address
    · rw [if_pos hr] at h
      obtain ⟨w₁, ⟨ok₁, v⟩, s₁, v₁, h₁, k₁, -⟩ := Code.runs_bind.mp h
      obtain ⟨w₂, ⟨ok₂, v'⟩, s₂, v₂, h₂, k₂, -⟩ := Code.runs_bind.mp k₁
      obtain ⟨-, hv, rfl⟩ := Code.runs_pure.mp k₂
      obtain ⟨rfl, -⟩ := Prod.mk.inj hv
      obtain ⟨rfl, -⟩ := runCheck_runs h₁
      rw [Bool.and_eq_false_iff, permits_readBefore, ih h₂]
      simp [hr]
    · rw [if_neg hr] at h
      rw [ih h]
      simp [hr]

/-- A store that no covering region acknowledges is checked without effect; otherwise the first
region that acknowledges leaves a write in the log. -/
theorem emuCheckFrom_write {address value value' : Word} {rs : List Region} {ok : Bool}
    {s s' : Sys} {w : List Event}
    (h : Code.Runs (emuCheckFrom address .write rs value) s w (ok, value') s') :
    value' = value ∧
      (ackAny s rs address .write value = false →
        w = [] ∧ s' = s ∧ ok = permitAll s rs address .write value) ∧
      (ackAny s rs address .write value = true → w ≠ []) := by
  induction rs generalizing s w value ok value' with
  | nil =>
    obtain ⟨rfl, hv, rfl⟩ := Code.runs_pure.mp h
    obtain ⟨rfl, rfl⟩ := Prod.mk.inj hv
    exact ⟨rfl, fun _ => ⟨rfl, rfl, rfl⟩, by simp [ackAny]⟩
  | cons r rs ih =>
    rw [emuCheckFrom, Code.runs_ite] at h
    rw [ackAny_cons, permitAll_cons]
    by_cases hr : r.covers address
    · rw [if_pos hr] at h
      obtain ⟨w₁, ⟨ok₁, v⟩, s₁, v₁, h₁, k₁, rfl⟩ := Code.runs_bind.mp h
      obtain ⟨w₂, ⟨ok₂, v'⟩, s₂, v₂, h₂, k₂, rfl⟩ := Code.runs_bind.mp k₁
      obtain ⟨rfl, hv, rfl⟩ := Code.runs_pure.mp k₂
      obtain ⟨rfl, rfl⟩ := Prod.mk.inj hv
      obtain ⟨rfl, hval, -, -, hack₁⟩ := runCheck_runs h₁
      rw [hval rfl] at h₂
      obtain ⟨hv', hno, hyes⟩ := ih h₂
      by_cases ha : r.acks s address .write value = true
      · rw [if_pos ha] at hack₁
        obtain ⟨x, rfl⟩ := hack₁
        simp [hr, ha, hv']
      · rw [if_neg ha] at hack₁
        obtain ⟨rfl, rfl⟩ := hack₁
        refine ⟨hv', fun hany => ?_, fun hany => ?_⟩
        · have hrest : ackAny s₁ rs address .write value = false := by
            simpa [hr, ha] using hany
          obtain ⟨rfl, rfl, rfl⟩ := hno hrest
          simp [hr]
        · have hrest : ackAny s₁ rs address .write value = true := by
            simpa [hr, ha] using hany
          simpa using hyes hrest
    · rw [if_neg hr] at h
      simpa [hr] using ih h

/-! ## Accesses -/

theorem memRead_bind {env : Env} {a : Access} {α : Type} {f : Word → Kernel α} {s s' : Sys}
    {w : List Event} {x : α} : Code.Runs (memRead env a >>= f) s w x s' ↔
      ∃ w', Code.Runs (f (s.load env a)) s w' x s' ∧ w = .read a :: w' := by
  rw [memRead, Code.runs_bind_assoc, Code.runs_emit_bind]
  simp only [Code.runs_bind_assoc, Code.runs_get_bind, Code.runs_pure_bind]

theorem memFetch_bind {env : Env} {a : Access} {α : Type} {f : Word → Kernel α} {s s' : Sys}
    {w : List Event} {x : α} : Code.Runs (memFetch env a >>= f) s w x s' ↔
      ∃ w', Code.Runs (f (s.load env a)) s w' x s' ∧ w = .fetch a :: w' := by
  rw [memFetch, Code.runs_bind_assoc, Code.runs_emit_bind]
  simp only [Code.runs_bind_assoc, Code.runs_get_bind, Code.runs_pure_bind]

theorem memWrite_runs {env : Env} {a : Access} {value : Word} {s s' : Sys} {w : List Event}
    {u : Unit} : Code.Runs (memWrite env a value) s w u s' ↔
      w = [.write a value] ∧ s' = s.store env a value := by
  rw [memWrite, Code.runs_emit_bind]
  constructor
  · rintro ⟨w', h, rfl⟩
    obtain ⟨rfl, rfl⟩ := Code.runs_modify.mp h
    exact ⟨rfl, rfl⟩
  · rintro ⟨rfl, rfl⟩
    exact ⟨[], Code.runs_modify.mpr ⟨rfl, rfl⟩, rfl⟩

/-! ## Loads, stores and whole aborts -/

/-- A load that some covering region with `emu_deny_all` refuses does nothing; every other load
reads. -/
theorem emuHandleLoad_runs {env : Env} {a : Access} {sign : Bool} {v : Word} {s s' : Sys}
    {w : List Event} (h : Code.Runs (emuHandleLoad env a sign) s w v s') :
    s' = s ∧ ((∃ r ∈ s.regions, r.covers a.pa ∧ r.check = .denyAll) → w = [] ∧ v = 0) ∧
      ((¬ ∃ r ∈ s.regions, r.covers a.pa ∧ r.check = .denyAll) → w = [.read a]) := by
  obtain ⟨w₁, ⟨ok, v₁⟩, s₁, w₂, h₁, h₂, rfl⟩ := Code.runs_bind.mp h
  rw [emuCheck, Code.runs_get_bind] at h₁
  obtain ⟨-, -, -, hread⟩ := emuCheckFrom_frame h₁
  have hok := emuCheckFrom_readBefore h₁
  obtain ⟨rfl, rfl⟩ := hread (by decide)
  dsimp only at h₂
  rw [Code.runs_ite] at h₂
  cases ok with
  | false =>
    obtain ⟨rfl, rfl, rfl⟩ := Code.runs_pure.mp h₂
    exact ⟨rfl, fun _ => ⟨rfl, rfl⟩, fun hn => absurd (hok.mp rfl) hn⟩
  | true =>
    have hn : ¬ ∃ r ∈ s₁.regions, r.covers a.pa ∧ r.check = .denyAll := fun hex => by
      cases hok.mpr hex
    simp only [if_true] at h₂
    obtain ⟨w₃, h₃, rfl⟩ := memRead_bind.mp h₂
    obtain ⟨w₄, ⟨ok', v'⟩, s₄, w₅, h₄, h₅, rfl⟩ := Code.runs_bind.mp h₃
    rw [emuCheck, Code.runs_get_bind] at h₄
    obtain ⟨-, -, -, hread'⟩ := emuCheckFrom_frame h₄
    obtain ⟨rfl, rfl⟩ := hread' (by decide)
    obtain ⟨rfl, -, rfl⟩ := Code.runs_pure.mp h₅
    exact ⟨rfl, fun hex => absurd hex hn, fun _ => rfl⟩

/-- A store: the check, then the write if the check allows it. -/
theorem emuHandleStore_runs {env : Env} {a : Access} {reg v : Word} {s s' : Sys} {w : List Event}
    (h : Code.Runs (emuHandleStore env a reg) s w v s') :
    ∃ ok w₁ s₁, Code.Runs (emuCheckFrom a.pa .write s.regions reg) s w₁ (ok, reg) s₁ ∧ v = reg ∧
      ((ok = true ∧ w = w₁ ++ [.write a reg] ∧ s' = s₁.store env a reg) ∨
        (ok = false ∧ w = w₁ ∧ s' = s₁)) := by
  obtain ⟨w₁, ⟨ok, v₁⟩, s₁, w₂, h₁, h₂, rfl⟩ := Code.runs_bind.mp h
  rw [emuCheck, Code.runs_get_bind] at h₁
  obtain ⟨rfl, -⟩ := emuCheckFrom_write h₁
  obtain ⟨w₃, _, s₃, w₄, h₃, h₄, rfl⟩ := Code.runs_bind.mp h₂
  obtain ⟨rfl, rfl, rfl⟩ := Code.runs_pure.mp h₄
  refine ⟨ok, w₁, s₁, h₁, rfl, ?_⟩
  rcases Code.runs_runIf.mp h₃ with ⟨hok, h₃⟩ | ⟨hok, rfl, rfl⟩
  · obtain ⟨rfl, rfl⟩ := memWrite_runs.mp h₃
    exact Or.inl ⟨hok, by simp, rfl⟩
  · exact Or.inr ⟨by simpa using hok, by simp, rfl⟩

/-- The register and the operation of an abort that `emu_handle` emulates. -/
def emuAccepts (env : Env) (s : Sys) (status dataPaddr instrPaddr : Word) : Option (Rt × EmuOp) :=
  if status &&& 0x40F = 0x008 ∧ env.data.contains dataPaddr ∧ env.instr.contains instrPaddr then
    let instr := s.load env (env.instr.access instrPaddr 4)
    match emuRt instr, emuDecode instr with
    | some rt, some op => some (rt, op)
    | _, _ => none
  else none

/-- `emu_handle` does nothing, or fetches and executes the instruction. -/
theorem emuHandle_runs {env : Env} {ctx ctx' : NsecCtx} {status pa ia : Word} {s s' : Sys}
    {w : List Event} (h : Code.Runs (emuHandle env ctx status pa ia) s w ctx' s') :
    (emuAccepts env s status pa ia = none ∧ w = [] ∧ s' = s) ∨
      ∃ rt op v w', emuAccepts env s status pa ia = some (rt, op) ∧
        Code.Runs (emuExecute env op pa (ctx.get rt)) s w' v s' ∧
        w = .fetch (env.instr.access ia 4) :: w' ∧ ctx' = ctx.set rt v := by
  unfold emuHandle at h
  by_cases hst : status &&& 0x40F = 0x008
  · rw [if_neg (not_not.mpr hst)] at h
    by_cases hd : env.data.contains pa
    · rw [if_neg (not_not.mpr hd)] at h
      by_cases hi : env.instr.contains ia
      · rw [if_neg (not_not.mpr hi)] at h
        obtain ⟨w', h', rfl⟩ := memFetch_bind.mp h
        refine Or.inr ?_
        cases hrt : emuRt (s.load env (env.instr.access ia 4)) with
        | none => simp [hrt] at h'
        | some rt =>
          cases hop : emuDecode (s.load env (env.instr.access ia 4)) with
          | none => simp [hrt, hop] at h'
          | some op =>
            simp only [hrt, hop] at h'
            obtain ⟨w₁, v, s₁, w₂, h₁, h₂, rfl⟩ := Code.runs_bind.mp h'
            obtain ⟨rfl, rfl, rfl⟩ := Code.runs_pure.mp h₂
            refine ⟨rt, op, v, w₁, ?_, h₁, by simp, rfl⟩
            rw [emuAccepts, if_pos ⟨hst, hd, hi⟩]
            simp only [hrt, hop]
      · rw [if_pos hi] at h
        obtain ⟨rfl, -, rfl⟩ := Code.runs_pure.mp h
        exact Or.inl ⟨if_neg fun hc => hi hc.2.2, rfl, rfl⟩
    · rw [if_pos hd] at h
      obtain ⟨rfl, -, rfl⟩ := Code.runs_pure.mp h
      exact Or.inl ⟨if_neg fun hc => hd hc.2.1, rfl, rfl⟩
  · rw [if_pos hst] at h
    obtain ⟨rfl, -, rfl⟩ := Code.runs_pure.mp h
    exact Or.inl ⟨if_neg fun hc => hst hc.1, rfl, rfl⟩

/-- An abort changes registers and plain memory only, and the CSU only by a write that hits it. -/
theorem emuHandle_frame {env : Env} {ctx ctx' : NsecCtx} {status pa ia : Word} {s s' : Sys}
    {w : List Event} (h : Code.Runs (emuHandle env ctx status pa ia) s w ctx' s') :
    BusOnly s s' ∧ (∀ t, .prot t ∉ w) ∧
      ((∀ a v, .write a v ∈ w → ¬ a.hits CsuByte) → s'.csu = s.csu) := by
  rcases emuHandle_runs h with ⟨-, rfl, rfl⟩ | ⟨rt, op, v, w', -, hop, rfl, -⟩
  · exact ⟨BusOnly.refl _, by simp, fun _ => rfl⟩
  cases op with
  | load size sign =>
    obtain ⟨rfl, hno, hyes⟩ := emuHandleLoad_runs hop
    refine ⟨BusOnly.refl _, fun t ht => ?_, fun _ => rfl⟩
    by_cases hex : ∃ r ∈ s'.regions, r.covers (env.data.access pa size).pa ∧ r.check = .denyAll
    · rw [(hno hex).1] at ht
      simp at ht
    · rw [hyes hex] at ht
      simp at ht
  | store size =>
    obtain ⟨ok, w₁, s₁, h₁, -, hres⟩ := emuHandleStore_runs hop
    obtain ⟨hbus, hcsu, hack, -⟩ := emuCheckFrom_frame h₁
    have hquiet : ∀ t, Event.prot t ∉ w₁ := by
      intro t ht
      obtain ⟨r, -, -, -, x, hx⟩ := hack _ ht
      cases hx
    rcases hres with ⟨-, rfl, rfl⟩ | ⟨-, rfl, rfl⟩
    · refine ⟨hbus.trans (store_busOnly _ _ _ _), fun t ht => ?_, fun hclean => ?_⟩
      · have hmem : Event.prot t ∈ w₁ := by simpa using ht
        exact hquiet t hmem
      · rw [store_csu (hclean _ (ctx.get rt) (by simp)), hcsu]
    · refine ⟨hbus, fun t ht => ?_, fun _ => hcsu⟩
      have hmem : Event.prot t ∈ w' := by simpa using ht
      exact hquiet t hmem

end SeCloak
