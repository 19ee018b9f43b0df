import SeCloak.Emulation.HandleProps
import SeCloak.Platform

/-!
# Cloaked registers

A device is cloaked for the non-secure world by regions with `emu_deny_all`. The emulator looks
for them at the first byte of an access, with 32-bit arithmetic, and asks the other regions at
that byte even after a refusal. `emuHandle_untouched_iff` says exactly when an access is left
undone.
-/

namespace SeCloak
open Misc

/-- The addresses of a region, as numbers. -/
def Region.spans (r : Region) (x : Nat) : Prop := r.base.toNat ≤ x ∧ x < r.base.toNat + r.size.toNat

instance (r : Region) (x : Nat) : Decidable (r.spans x) := inferInstanceAs (Decidable (_ ∧ _))

/-- Some byte of an access of `size` bytes lies in a region with `emu_deny_all`. -/
def ReachesCloaked (s : Sys) (pa : Word) (size : Nat) : Prop :=
  ∃ i < size, ∃ r ∈ s.regions, r.check = .denyAll ∧ r.spans (pa.toNat + i)

/-- The access was not made: a store wrote nothing and changed nothing, a load read nothing and
left zero in its register. -/
def Untouched (rt : Rt) (op : EmuOp) (s : Sys) (w : List Event) (ctx' : NsecCtx) (s' : Sys) : Prop :=
  match op with
  | .load _ _ => (∀ a, .read a ∉ w) ∧ ctx'.get rt = 0
  | .store _ => (∀ a v, .write a v ∉ w) ∧ s' = s

/-- The state before the access refuses it: at its first byte a region with `emu_deny_all`
covers a load, or some covering region objects to a store and none takes it as an
acknowledgement. -/
def Refused (s : Sys) (pa : Word) (reg : Word) (op : EmuOp) : Prop :=
  match op with
  | .load _ _ => ∃ r ∈ s.regions, r.covers pa ∧ r.check = .denyAll
  | .store _ =>
    (∃ r ∈ s.regions, r.covers pa ∧ r.permits s pa .write reg = false) ∧
      ∀ r ∈ s.regions, r.covers pa → r.acks s pa .write reg = false

theorem get_set (ctx : NsecCtx) (rt : Rt) (v : Word) : (ctx.set rt v).get rt = v := by
  cases rt <;> simp [NsecCtx.set, NsecCtx.get]

/-- A store is left undone exactly when some covering region objects and none takes it as an
acknowledgement. -/
theorem emuHandleStore_untouched_iff {env : Env} {pa reg v : Word} {size : Nat} {s s' : Sys}
    {w : List Event} (h : Code.Runs (emuHandleStore env (env.data.access pa size) reg) s w v s') :
    ((∀ a x, .write a x ∉ w) ∧ s' = s) ↔ permitAll s s.regions pa .write reg = false ∧
      ackAny s s.regions pa .write reg = false := by
  obtain ⟨ok, w₁, s₁, h₁, -, hres⟩ := emuHandleStore_runs h
  obtain ⟨-, hno, hyes⟩ := emuCheckFrom_write h₁
  have hack := (emuCheckFrom_frame h₁).2.2.1
  constructor
  · rintro ⟨hwrite, -⟩
    -- an acknowledgement would have been a write
    have hw₁ : w₁ = [] := by
      rw [List.eq_nil_iff_forall_not_mem]
      intro e he
      obtain ⟨r, -, -, -, x, rfl⟩ := hack e he
      refine hwrite (r.ackAccess s) x ?_
      rcases hres with ⟨-, rfl, -⟩ | ⟨-, rfl, -⟩
      · simp [he]
      · simp [he]
    have hany : ackAny s s.regions pa .write reg = false := by
      by_contra hany
      exact hyes (Bool.eq_true_of_not_eq_false hany) hw₁
    obtain ⟨-, -, hok⟩ := hno hany
    refine ⟨?_, hany⟩
    rcases hres with ⟨-, rfl, -⟩ | ⟨hok', -, -⟩
    · exact absurd (by simp) (hwrite (env.data.access pa size) reg)
    · rw [← hok', hok]
      rfl
  · rintro ⟨hperm, hany⟩
    obtain ⟨rfl, rfl, hok⟩ := hno hany
    rcases hres with ⟨hok', -, -⟩ | ⟨-, rfl, rfl⟩
    · have hfalse : ok = false := hok.trans hperm
      rw [hfalse] at hok'
      cases hok'
    · exact ⟨by simp, rfl⟩

/-- The emulator leaves an access undone exactly when the state before it refuses it. -/
theorem emuHandle_untouched_iff {env : Env} {ctx ctx' : NsecCtx} {status pa ia : Word} {s s' : Sys}
    {w : List Event} {rt : Rt} {op : EmuOp} (hacc : emuAccepts env s status pa ia = some (rt, op))
    (h : Code.Runs (emuHandle env ctx status pa ia) s w ctx' s') :
    Untouched rt op s w ctx' s' ↔ Refused s pa (ctx.get rt) op := by
  rcases emuHandle_runs h with ⟨hnone, -, -⟩ | ⟨rt', op', v, w', hacc', hop, rfl, rfl⟩
  · rw [hnone] at hacc
    cases hacc
  rw [hacc] at hacc'
  obtain ⟨rfl, rfl⟩ := Prod.mk.inj (Option.some.inj hacc')
  cases op with
  | load size sign =>
    obtain ⟨-, hno, hyes⟩ := emuHandleLoad_runs hop
    simp only [Untouched, Refused, get_set]
    constructor
    · rintro ⟨hread, -⟩
      by_contra hex
      exact hread (env.data.access pa size) (by simp [hyes hex])
    · intro hex
      obtain ⟨rfl, rfl⟩ := hno hex
      simp
  | store size =>
    have hiff := emuHandleStore_untouched_iff hop
    rw [permitAll_eq_false, ackAny_eq_false] at hiff
    -- the fetch of the instruction is no write
    simp only [Untouched, Refused, ← hiff]
    simp

/-- An access that reaches a cloaked register is left undone exactly when the check of its first
byte refuses it. -/
theorem cloaked_untouched_iff {env : Env} {ctx ctx' : NsecCtx} {status pa ia : Word} {s s' : Sys}
    {w : List Event} {rt : Rt} {op : EmuOp} (hacc : emuAccepts env s status pa ia = some (rt, op))
    (h : Code.Runs (emuHandle env ctx status pa ia) s w ctx' s') :
    (ReachesCloaked s pa op.size → Untouched rt op s w ctx' s') ↔
      (ReachesCloaked s pa op.size → Refused s pa (ctx.get rt) op) := by
  rw [emuHandle_untouched_iff hacc h]

/-- Non-secure registers that all hold the same value. -/
def ctxWith (v : Word) : NsecCtx := ⟨fun _ => v, v, v⟩

/-- One cloaked range, and `str r0, [r1]` as the instruction that traps. -/
def cloakedRange (base size : Word) : Sys :=
  { resetWithInstr 0xE5810000 with regions := [⟨base, size, .denyAll⟩] }

theorem cloaked_untouched_store :
    emuAccepts imx6 (cloakedRange 0x020BC000 0x4000) 0x008 0x020BC010 0x10000000 =
        some (.r 0, .store 4) ∧
      ∃ w ctx' s', Code.Runs (emuHandle imx6 (ctxWith 1) 0x008 0x020BC010 0x10000000)
          (cloakedRange 0x020BC000 0x4000) w ctx' s' ∧
        ((ReachesCloaked (cloakedRange 0x020BC000 0x4000) 0x020BC010 4 →
            Untouched (.r 0) (.store 4) (cloakedRange 0x020BC000 0x4000) w ctx' s') ↔
          (ReachesCloaked (cloakedRange 0x020BC000 0x4000) 0x020BC010 4 →
            Refused (cloakedRange 0x020BC000 0x4000) 0x020BC010 1 (.store 4))) := by
  have hacc : emuAccepts imx6 (cloakedRange 0x020BC000 0x4000) 0x008 0x020BC010 0x10000000 =
      some (.r 0, .store 4) := by decide +kernel
  obtain ⟨w, ctx', s', h⟩ := Code.exists_runs
    (m := emuHandle imx6 (ctxWith 1) 0x008 0x020BC010 0x10000000)
    (s := cloakedRange 0x020BC000 0x4000) (by decide +kernel)
  exact ⟨hacc, w, ctx', s', h, cloaked_untouched_iff hacc h⟩

/-- A word store just below two cloaked bytes covers them and is made. -/
theorem cloaked_bytes_overwritten :
    emuAccepts imx6 (cloakedRange 0x020BC002 2) 0x008 0x020BC000 0x10000000 =
        some (.r 0, .store 4) ∧
      ReachesCloaked (cloakedRange 0x020BC002 2) 0x020BC000 4 ∧
      ∃ w ctx' s', Code.Runs (emuHandle imx6 (ctxWith 1) 0x008 0x020BC000 0x10000000)
          (cloakedRange 0x020BC002 2) w ctx' s' ∧
        ¬ Untouched (.r 0) (.store 4) (cloakedRange 0x020BC002 2) w ctx' s' := by
  have hacc : emuAccepts imx6 (cloakedRange 0x020BC002 2) 0x008 0x020BC000 0x10000000 =
      some (.r 0, .store 4) := by decide +kernel
  obtain ⟨w, ctx', s', h⟩ := Code.exists_runs
    (m := emuHandle imx6 (ctxWith 1) 0x008 0x020BC000 0x10000000)
    (s := cloakedRange 0x020BC002 2) (by decide +kernel)
  refine ⟨hacc, ⟨2, by decide, ⟨0x020BC002, 2, .denyAll⟩, ?_, rfl, by decide⟩, w, ctx', s', h, ?_⟩
  · exact List.mem_singleton.mpr rfl
  · rw [emuHandle_untouched_iff hacc h]
    rintro ⟨⟨r, hr, hcov, -⟩, -⟩
    rw [List.mem_singleton.mp hr] at hcov
    exact absurd hcov (by decide)

end SeCloak
