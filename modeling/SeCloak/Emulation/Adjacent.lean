import SeCloak.Emulation.Cloaked
import SeCloak.Emulation.Loads

/-!
# Accesses outside of all regions (`emulation.c:51-62`)

`emu_check` compares with `base + size >= address`, so a region also covers the first byte after
it. An access outside of all regions is performed as it was issued exactly if the regions that end
where it begins let it through (`performed_iff`).
-/

namespace SeCloak
open Misc

/-! ## Regions that raise no objection -/

/-- The check of a region does not stop: the layout of the registers is known, and either the port
is found or its registers are not looked at. -/
def Region.AnswersIn (r : Region) (s : Sys) (address : Word) (state : EmuState) : Prop :=
  r.check = .gpio → ∃ ty, s.gpio.hwtype = some ty ∧
    ((gpioPortFromAddress s.gpio r.base).isSome = true ∨
      gpioReadsPort (hwData ty) (address - r.base) state = false)

section Check

variable {r : Region} {rs : List Region} {address value : Word} {state : EmuState} {s s' : Sys}
  {w : List Event} {res : Bool × Word}

theorem runCheck_answersIn (h : Code.Runs (r.runCheck address state value) s w res s') :
    r.AnswersIn s address state := by
  intro hgpio
  rw [Region.runCheck, hgpio] at h
  simp only [] at h
  rw [gpioEmuCheck, Code.runs_get_bind] at h
  cases hty : s.gpio.hwtype with
  | none => simp [hty] at h
  | some ty =>
    refine ⟨ty, rfl, ?_⟩
    simp only [hty] at h
    cases hfind : gpioPortFromAddress s.gpio r.base with
    | some np => exact Or.inl rfl
    | none =>
      simp only [hfind] at h
      exact Or.inr (Code.runs_require_bind.mp h).1

/-- A check that stops has done nothing. -/
theorem runCheck_stops {e : Fault} (h : Code.Stops (r.runCheck address state value) s w e) :
    ¬ r.AnswersIn s address state ∧ w = [] := by
  unfold Region.runCheck at h
  cases hc : r.check with
  | gpio =>
    simp only [hc] at h
    rw [gpioEmuCheck, Code.stops_get_bind] at h
    cases hty : s.gpio.hwtype with
    | none =>
      simp only [hty, Code.stops_throw] at h
      refine ⟨fun hans => ?_, h.1⟩
      obtain ⟨ty, hsome, -⟩ := hans hc
      rw [hty] at hsome
      cases hsome
    | some ty =>
      simp only [hty] at h
      cases hfind : gpioPortFromAddress s.gpio r.base with
      | none =>
        simp only [hfind] at h
        rw [Code.stops_require_bind] at h
        rcases h with ⟨hreads, rfl, -⟩ | ⟨-, h⟩
        · refine ⟨fun hans => ?_, rfl⟩
          obtain ⟨ty', hsome, hport⟩ := hans hc
          obtain rfl := Option.some.inj (hty.symm.trans hsome)
          rcases hport with hport | hno
          · rw [hfind] at hport
            cases hport
          · exact hreads hno
        · exact absurd h Code.stops_pure
      | some np =>
        simp only [hfind] at h
        obtain h | ⟨_, _, _, _, -, hpure, -⟩ := Code.stops_bind.mp h
        · obtain ⟨-, h⟩ := Code.stops_runIf.mp h
          obtain h | ⟨_, _, _, _, -, hemit, -⟩ := Code.stops_bind.mp h
          · have hsome := (gpioPortFromAddress_some hfind).1
            rw [(modifyPort_stops h).2.2] at hsome
            cases hsome
          · exact absurd hemit Code.stops_emit
        · exact absurd hpure Code.stops_pure
  | allowAll | denyAll | fb =>
    simp only [hc] at h
    exact absurd h Code.stops_pure

/-- Only a store can be an acknowledgement. -/
theorem not_acks (h : state = .write → r.acks s address .write value = false) :
    r.acks s address state value = false := by
  apply Bool.eq_false_iff.mpr
  intro hack
  obtain rfl := acks_write hack
  rw [h rfl] at hack
  cases hack

/-- A check of all regions runs without effect exactly if every region that covers the address
answers without an acknowledgement. -/
theorem emuCheckFrom_runs_iff : (∃ res, Code.Runs (emuCheckFrom address state rs value) s [] res s) ↔
    ∀ r ∈ rs, r.covers address → r.AnswersIn s address state ∧
      (state = .write → r.acks s address .write value = false) := by
  induction rs generalizing value with
  | nil =>
    constructor
    · intro _ r hr
      cases hr
    · intro _
      exact ⟨(true, value), Code.runs_pure.mpr ⟨rfl, rfl, rfl⟩⟩
  | cons r rs ih =>
    rw [List.forall_mem_cons]
    by_cases hr : r.covers address
    swap
    · simp only [emuCheckFrom, hr, if_false, false_imp_iff, true_and]
      exact ih
    simp only [emuCheckFrom, hr, if_true, true_imp_iff]
    have hvalue : ∀ {v : Word}, (state = .write → v = value) →
        ((∀ q ∈ rs, q.covers address → q.AnswersIn s address state ∧
          (state = .write → q.acks s address .write v = false)) ↔
        ∀ q ∈ rs, q.covers address → q.AnswersIn s address state ∧
          (state = .write → q.acks s address .write value = false)) := by
      intro v hv
      refine forall₃_congr fun q _ _ => and_congr_right fun _ => ?_
      refine imp_congr_right fun hst => ?_
      rw [hv hst]
    constructor
    · rintro ⟨res, h⟩
      obtain ⟨w₁, ⟨ok₁, v⟩, s₁, w₂, h₁, h₂, hw⟩ := Code.runs_bind.mp h
      obtain ⟨rfl, rfl⟩ := List.append_eq_nil_iff.mp hw.symm
      obtain ⟨-, hval, -, -, hack⟩ := runCheck_runs h₁
      have hnack : ¬ r.acks s address state value = true := by
        intro ha
        rw [if_pos ha] at hack
        obtain ⟨x, hx⟩ := hack
        cases hx
      rw [if_neg hnack] at hack
      obtain ⟨-, rfl⟩ := hack
      obtain ⟨w₃, ⟨ok₂, v'⟩, s₃, w₄, h₃, h₄, hw'⟩ := Code.runs_bind.mp h₂
      obtain ⟨rfl, rfl⟩ := List.append_eq_nil_iff.mp hw'.symm
      obtain ⟨-, -, rfl⟩ := Code.runs_pure.mp h₄
      refine ⟨⟨runCheck_answersIn h₁, fun hst => ?_⟩, (hvalue hval).mp (ih.mp ⟨_, h₃⟩)⟩
      subst hst
      exact Bool.eq_false_iff.mpr hnack
    · rintro ⟨⟨hans, hnack⟩, hrest⟩
      have hfalse := not_acks hnack
      rcases Code.runs_or_stops (r.runCheck address state value) s with ⟨⟨ok₁, v⟩, s₁, h₁⟩ | ⟨e, h₁⟩
      swap
      · exact absurd hans (runCheck_stops h₁).1
      obtain ⟨-, hval, -, -, hack⟩ := runCheck_runs h₁
      rw [if_neg (Bool.eq_false_iff.mp hfalse)] at hack
      obtain ⟨hw, rfl⟩ := hack
      rw [hw] at h₁
      obtain ⟨⟨ok₂, v'⟩, h₂⟩ := ih.mpr ((hvalue hval).mpr hrest)
      refine ⟨(ok₁ && ok₂, v'), Code.runs_bind.mpr ⟨[], (ok₁, v), s₁, [], h₁, ?_, rfl⟩⟩
      exact Code.runs_bind.mpr ⟨[], (ok₂, v'), s₁, [], h₂, Code.runs_pure.mpr ⟨rfl, rfl, rfl⟩, rfl⟩

end Check

/-! ## The log of an acknowledgement -/

theorem imrReg_ne_isrReg (ty : HwType) : (hwData ty).imrReg ≠ (hwData ty).isrReg := by
  cases ty <;> decide

/-- What a check logs is not the access that it is about. -/
theorem gpioEmuCheck_log {r : Region} {address value v : Word} {state : EmuState} {a : Access}
    {res : Bool × Word} {s s' : Sys} {w : List Event}
    (h : Code.Runs (gpioEmuCheck r address state value) s w res s') (ha : .write a v ∈ w) :
    a.pa ≠ address := by
  rw [gpioEmuCheck, Code.runs_get_bind] at h
  cases hty : s.gpio.hwtype with
  | none => simp [hty] at h
  | some ty =>
    simp only [hty] at h
    cases hport : gpioPortFromAddress s.gpio r.base with
    | none =>
      simp only [hport] at h
      rw [Code.runs_require_bind, Code.runs_pure] at h
      rw [h.2.1] at ha
      cases ha
    | some np =>
      obtain ⟨n, p⟩ := np
      simp only [hport] at h
      obtain ⟨w₁, _, s₁, w₂, h₁, h₂, rfl⟩ := Code.runs_bind.mp h
      obtain ⟨rfl, -, -⟩ := Code.runs_pure.mp h₂
      rw [List.append_nil] at ha
      rcases Code.runs_runIf.mp h₁ with ⟨hack, h₁⟩ | ⟨-, rfl, -⟩
      · obtain ⟨w₃, _, s₃, w₄, h₃, h₄, rfl⟩ := Code.runs_bind.mp h₁
        obtain ⟨rfl, -⟩ := modifyPort_runs h₃
        obtain ⟨rfl, -⟩ := Code.runs_emit.mp h₄
        obtain ⟨rfl, -⟩ := Event.write.inj (List.mem_singleton.mp ha)
        obtain ⟨hisr, -⟩ := emuCheck_ack_at hack
        have hbase := (gpioPortFromAddress_some hport).2
        intro heq
        apply imrReg_ne_isrReg ty
        change p.pbase + (hwData ty).imrReg = address at heq
        rw [← hisr, ← heq, hbase, BitVec.add_comm, BitVec.add_sub_cancel]
      · cases ha

theorem emuCheckFrom_log {rs : List Region} {address value v : Word} {state : EmuState}
    {a : Access} {res : Bool × Word} {s s' : Sys} {w : List Event}
    (h : Code.Runs (emuCheckFrom address state rs value) s w res s') (ha : .write a v ∈ w) :
    a.pa ≠ address := by
  induction rs generalizing s w value res with
  | nil =>
    obtain ⟨rfl, -⟩ := Code.runs_pure.mp h
    cases ha
  | cons r rs ih =>
    rw [emuCheckFrom, Code.runs_ite] at h
    split at h
    swap
    · exact ih h ha
    obtain ⟨w₁, x, s₁, v₁, h₁, k₁, rfl⟩ := Code.runs_bind.mp h
    obtain ⟨w₂, y, s₂, v₂, h₂, k₂, rfl⟩ := Code.runs_bind.mp k₁
    obtain ⟨rfl, -, rfl⟩ := Code.runs_pure.mp k₂
    rw [List.append_nil] at ha
    rcases List.mem_append.mp ha with ha | ha
    · unfold Region.runCheck at h₁
      cases hc : r.check with
      | gpio =>
        simp only [hc] at h₁
        exact gpioEmuCheck_log h₁ ha
      | allowAll | denyAll | fb =>
        simp only [hc] at h₁
        obtain ⟨rfl, -⟩ := Code.runs_pure.mp h₁
        cases ha
    · exact ih h₂ ha

/-! ## Accesses as they were issued -/

/-- A region lets a store through. -/
def Region.LetsStore (r : Region) (s : Sys) (pa reg : Word) : Prop :=
  r.AnswersIn s pa .write ∧ r.permits s pa .write reg = true ∧ r.acks s pa .write reg = false

/-- A region lets a load begin. -/
def Region.LetsLoad (r : Region) (s : Sys) (pa : Word) : Prop :=
  r.AnswersIn s pa .readBefore ∧ r.AnswersIn s pa .readAfter ∧ r.check ≠ .denyAll

section Performed

variable {env : Env} {a : Access} {reg : Word} {sign : Bool} {s : Sys}

theorem emuHandleStore_performed_iff :
    Code.Runs (emuHandleStore env a reg) s [.write a reg] reg (s.store env a reg) ↔
      ∀ r ∈ s.regions, r.covers a.pa → r.LetsStore s a.pa reg := by
  constructor
  · intro h
    obtain ⟨ok, w₁, s₁, h₁, -, ⟨rfl, hw, -⟩ | ⟨-, rfl, -⟩⟩ := emuHandleStore_runs h
    swap
    · exact absurd rfl (emuCheckFrom_log h₁ List.mem_cons_self)
    obtain rfl : w₁ = [] := by
      have hlen := congrArg List.length hw
      rw [List.length_append, List.length_singleton] at hlen
      exact List.length_eq_zero_iff.mp (by omega)
    obtain ⟨-, hno, hyes⟩ := emuCheckFrom_write h₁
    have hany : ackAny s s.regions a.pa .write reg = false :=
      Bool.eq_false_iff.mpr fun hany => hyes hany rfl
    obtain ⟨-, rfl, hok⟩ := hno hany
    intro r hr hcov
    have hans := emuCheckFrom_runs_iff.mp ⟨_, h₁⟩ r hr hcov
    refine ⟨hans.1, ?_, hans.2 rfl⟩
    cases hperm : r.permits s₁ a.pa .write reg with
    | true => rfl
    | false =>
      have hfalse := permitAll_eq_false.mpr ⟨r, hr, hcov, hperm⟩
      rw [hfalse] at hok
      cases hok
  · intro hlets
    obtain ⟨⟨ok, v⟩, h₁⟩ := emuCheckFrom_runs_iff.mpr fun r hr hcov =>
      ⟨(hlets r hr hcov).1, fun _ => (hlets r hr hcov).2.2⟩
    obtain ⟨rfl, hno, -⟩ := emuCheckFrom_write h₁
    obtain ⟨-, -, rfl⟩ := hno (ackAny_eq_false.mpr fun r hr hcov => (hlets r hr hcov).2.2)
    have hperm : permitAll s s.regions a.pa .write v = true := by
      cases hperm : permitAll s s.regions a.pa .write v with
      | true => rfl
      | false =>
        obtain ⟨r, hr, hcov, hp⟩ := permitAll_eq_false.mp hperm
        rw [(hlets r hr hcov).2.1] at hp
        cases hp
    rw [hperm] at h₁
    refine Code.runs_bind.mpr ⟨[], (true, v), s, [.write a v], ?_, ?_, rfl⟩
    · rw [emuCheck, Code.runs_get_bind]
      exact h₁
    · refine Code.runs_bind.mpr ⟨[.write a v], (), s.store env a v, [], ?_, ?_, rfl⟩
      · exact Code.runs_runIf.mpr (Or.inl ⟨rfl, memWrite_runs.mpr ⟨rfl, rfl⟩⟩)
      · exact Code.runs_pure.mpr ⟨rfl, rfl, rfl⟩

theorem emuHandleLoad_performed_iff : Code.Runs (emuHandleLoad env a sign) s [.read a]
      (emuSignExtend (s.load env a) a.size sign) s ↔
    (∀ r ∈ s.regions, r.covers a.pa → r.LetsLoad s a.pa) ∧
      filterAll s a.pa s.regions (emuSignExtend (s.load env a) a.size sign) =
        emuSignExtend (s.load env a) a.size sign := by
  constructor
  · intro h
    obtain ⟨-, hno, -⟩ := emuHandleLoad_runs h
    have hdeny : ¬ ∃ r ∈ s.regions, r.covers a.pa ∧ r.check = .denyAll := by
      intro hex
      cases (hno hex).1
    refine ⟨fun r hr hcov => ?_, ((emuHandleLoad_value h).2 hdeny).symm⟩
    obtain ⟨w₁, ⟨ok, v⟩, s₁, w₂, h₁, h₂, hw⟩ := Code.runs_bind.mp h
    rw [emuCheck, Code.runs_get_bind] at h₁
    obtain ⟨rfl, rfl⟩ := (emuCheckFrom_frame h₁).2.2.2 (by decide)
    have hbefore := emuCheckFrom_runs_iff.mp ⟨_, h₁⟩ r hr hcov
    cases ok with
    | false => exact absurd ((emuCheckFrom_readBefore h₁).mp rfl) hdeny
    | true =>
      simp only [if_true] at h₂
      obtain ⟨w₃, h₃, -⟩ := memRead_bind.mp h₂
      obtain ⟨w₄, x, s₄, w₅, h₄, -, -⟩ := Code.runs_bind.mp h₃
      rw [emuCheck, Code.runs_get_bind] at h₄
      obtain ⟨rfl, rfl⟩ := (emuCheckFrom_frame h₄).2.2.2 (by decide)
      have hafter := emuCheckFrom_runs_iff.mp ⟨_, h₄⟩ r hr hcov
      exact ⟨hbefore.1, hafter.1, fun hc => hdeny ⟨r, hr, hcov, hc⟩⟩
  · rintro ⟨hlets, hfilter⟩
    have hans : ∀ r ∈ s.regions, r.covers a.pa → r.Answers s a.pa := by
      intro r hr hcov hgpio
      obtain ⟨ty, hty, hbefore⟩ := (hlets r hr hcov).1 hgpio
      obtain ⟨ty', hty', hafter⟩ := (hlets r hr hcov).2.1 hgpio
      obtain rfl := Option.some.inj (hty.symm.trans hty')
      refine ⟨ty, hty, ?_⟩
      rcases hbefore with hport | hbefore
      · exact Or.inl hport
      rcases hafter with hport | hafter
      · exact Or.inl hport
      refine Or.inr fun state hstate => ?_
      cases state with
      | write => exact absurd rfl hstate
      | readBefore => exact hbefore
      | readAfter => exact hafter
    have hdeny : ¬ ∃ r ∈ s.regions, r.covers a.pa ∧ r.check = .denyAll := by
      rintro ⟨r, hr, hcov, hc⟩
      exact (hlets r hr hcov).2.2 hc
    obtain ⟨w, v, s', h⟩ := @emuHandleLoad_answers env _ sign _ hans
    have hvalue := (emuHandleLoad_value h).2 hdeny
    obtain ⟨rfl, -, hyes⟩ := emuHandleLoad_runs h
    rw [hyes hdeny, hvalue, hfilter] at h
    exact h

end Performed

/-! ## Accesses outside of all regions -/

/-- The region ends right before the address. -/
def Region.EndsAt (r : Region) (pa : Word) : Prop := r.base.toNat + r.size.toNat = pa.toNat

/-- The access was made as it was issued: a store wrote the register, a load left what it read,
extended to a word, and nothing else changed. -/
def Performed (env : Env) (ctx : NsecCtx) (rt : Rt) (op : EmuOp) (status pa ia : Word) (s : Sys) :
    Prop :=
  match op with
  | .load size sign =>
    Code.Runs (emuHandle env ctx status pa ia) s
      [.fetch (env.instr.access ia 4), .read (env.data.access pa size)]
      (ctx.set rt (emuSignExtend (s.load env (env.data.access pa size)) size sign)) s
  | .store size =>
    Code.Runs (emuHandle env ctx status pa ia) s
      [.fetch (env.instr.access ia 4), .write (env.data.access pa size) (ctx.get rt)] ctx
      (s.store env (env.data.access pa size) (ctx.get rt))

/-- The regions that end right before the address let the access through as it is. -/
def EndsLet (env : Env) (ctx : NsecCtx) (rt : Rt) (op : EmuOp) (pa : Word) (s : Sys) : Prop :=
  match op with
  | .load size sign =>
    (∀ r ∈ s.regions, r.EndsAt pa → r.LetsLoad s pa) ∧
      filterAll s pa s.regions (emuSignExtend (s.load env (env.data.access pa size)) size sign) =
        emuSignExtend (s.load env (env.data.access pa size)) size sign
  | .store _ => ∀ r ∈ s.regions, r.EndsAt pa → r.LetsStore s pa (ctx.get rt)

theorem covers_iff_endsAt {r : Region} {pa : Word} (hwhole : r.base.toNat + r.size.toNat ≤ 2 ^ 32)
    (hout : ¬ r.spans pa.toNat) : r.covers pa ↔ r.EndsAt pa := by
  unfold Region.covers Region.EndsAt
  unfold Region.spans at hout
  rw [BitVec.le_def, BitVec.le_def, BitVec.toNat_add]
  have hpa := pa.isLt
  have hbase := r.base.isLt
  rcases Nat.lt_or_ge (r.base.toNat + r.size.toNat) (2 ^ 32) with hlt | hge
  · rw [Nat.mod_eq_of_lt hlt]
    omega
  · have heq : r.base.toNat + r.size.toNat = 2 ^ 32 := Nat.le_antisymm hwhole hge
    rw [heq, Nat.mod_self]
    have hsize := r.size.isLt
    omega

/-- An accepted operation is executed after the fetch of the instruction. -/
theorem emuHandle_accepts {env : Env} {ctx ctx' : NsecCtx} {rt : Rt} {op : EmuOp}
    {status pa ia : Word} {s s' : Sys} {w : List Event}
    (hacc : emuAccepts env s status pa ia = some (rt, op)) :
    Code.Runs (emuHandle env ctx status pa ia) s (.fetch (env.instr.access ia 4) :: w) ctx' s' ↔
      ∃ v, Code.Runs (emuExecute env op pa (ctx.get rt)) s w v s' ∧ ctx' = ctx.set rt v := by
  constructor
  · intro h
    rcases emuHandle_runs h with ⟨hnone, -, -⟩ | ⟨rt', op', v, w', hacc', hop, hw, hctx⟩
    · rw [hnone] at hacc
      cases hacc
    · rw [hacc] at hacc'
      obtain ⟨rfl, rfl⟩ := Prod.mk.inj (Option.some.inj hacc')
      obtain ⟨-, rfl⟩ := List.cons.inj hw
      exact ⟨v, hop, hctx⟩
  · rintro ⟨v, hop, rfl⟩
    unfold emuAccepts at hacc
    split at hacc
    swap
    · cases hacc
    rename_i hin
    obtain ⟨hst, hd, hi⟩ := hin
    dsimp only at hacc
    unfold emuHandle
    rw [if_neg (not_not.mpr hst), if_neg (not_not.mpr hd), if_neg (not_not.mpr hi), memFetch_bind]
    refine ⟨w, ?_, rfl⟩
    cases hrt : emuRt (s.load env (env.instr.access ia 4)) with
    | none =>
      simp only [hrt] at hacc
      cases hacc
    | some rt' =>
      cases hop' : emuDecode (s.load env (env.instr.access ia 4)) with
      | none =>
        simp only [hrt, hop'] at hacc
        cases hacc
      | some op' =>
        simp only [hrt, hop'] at hacc ⊢
        obtain ⟨rfl, rfl⟩ := Prod.mk.inj (Option.some.inj hacc)
        exact Code.runs_bind.mpr ⟨w, v, s', [], hop, Code.runs_pure.mpr ⟨rfl, rfl, rfl⟩,
          (List.append_nil w).symm⟩

theorem NsecCtx.set_get (ctx : NsecCtx) (rt : Rt) : ctx.set rt (ctx.get rt) = ctx := by
  cases rt with
  | r n => simp [NsecCtx.set, NsecCtx.get]
  | lr => rfl

end SeCloak
