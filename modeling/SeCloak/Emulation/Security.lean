import SeCloak.Emulation.Cloaked
import SeCloak.Kernel.BootProps

/-!
# Stores to the security hardware

The emulator makes an access on behalf of the non-secure world unless a region objects, and no
region stands for the CSU or the TZASC unless the device tree names one. `security_writes` says
when a store reaches them: when it is emulated at all and every region that covers its address
permits it.
-/

namespace SeCloak
open Misc

/-- The registers of the CSU, and those of the TZASC (`tzc380.h:44-68`). -/
def SecurityByte (pa : Word) : Prop := CsuByte pa ∨ (pa - tzc380Base).toNat < 0x1000

instance : DecidablePred SecurityByte := fun _ => inferInstanceAs (Decidable (_ ∨ _))

/-- The event is a write to some byte in `P`. -/
def Event.WritesTo (P : Word → Prop) : Event → Prop
  | .write a _ => a.hits P
  | _ => False

instance (P : Word → Prop) [DecidablePred P] : DecidablePred (Event.WritesTo P) := fun e =>
  match e with
  | .write a _ => inferInstanceAs (Decidable (a.hits P))
  | .prot _ | .blit _ _ _ | .pixel _ | .fetch _ | .read _ => inferInstanceAs (Decidable False)

/-- A write of `emu_handle` is the store itself or the acknowledgement by a port. -/
theorem emuHandle_writes {env : Env} {ctx ctx' : NsecCtx} {status pa ia : Word} {s s' : Sys}
    {w : List Event} {P : Word → Prop}
    (h : Code.Runs (emuHandle env ctx status pa ia) s w ctx' s') (hw : ∃ e ∈ w, e.WritesTo P) :
    ∃ rt size, emuAccepts env s status pa ia = some (rt, .store size) ∧
      ((env.data.access pa size).hits P ∨
        ∃ r ∈ s.regions, r.covers pa ∧ r.check = .gpio ∧ (r.ackAccess s).hits P) := by
  obtain ⟨e, he, hP⟩ := hw
  rcases emuHandle_runs h with ⟨-, rfl, -⟩ | ⟨rt, op, v, w', hacc, hop, rfl, -⟩
  · cases he
  rcases List.mem_cons.mp he with rfl | he
  · exact absurd hP id
  cases op with
  | load size sign =>
    obtain ⟨-, hno, hyes⟩ := emuHandleLoad_runs hop
    by_cases hex : ∃ r ∈ s.regions, r.covers (env.data.access pa size).pa ∧ r.check = .denyAll
    · rw [(hno hex).1] at he
      cases he
    · rw [hyes hex] at he
      rw [List.mem_singleton.mp he] at hP
      exact absurd hP id
  | store size =>
    refine ⟨rt, size, hacc, ?_⟩
    obtain ⟨ok, w₁, s₁, h₁, -, hres⟩ := emuHandleStore_runs hop
    obtain ⟨-, -, hack, -⟩ := emuCheckFrom_frame h₁
    have hw' : e ∈ w₁ ∨ e = .write (env.data.access pa size) (ctx.get rt) := by
      rcases hres with ⟨-, rfl, -⟩ | ⟨-, rfl, -⟩
      · simpa using he
      · exact Or.inl he
    rcases hw' with he | rfl
    · obtain ⟨r, hr, hcov, hgpio, x, rfl⟩ := hack e he
      exact Or.inr ⟨r, hr, hcov, hgpio, hP⟩
    · exact Or.inl hP

/-- A store that no region takes as an acknowledgement is made exactly if all regions that cover
its address permit it. -/
theorem emuHandle_store_iff {env : Env} {ctx ctx' : NsecCtx} {status pa ia : Word} {s s' : Sys}
    {w : List Event} {P : Word → Prop} {rt : Rt} {size : Nat}
    (hacc : emuAccepts env s status pa ia = some (rt, .store size))
    (hack : ∀ r ∈ s.regions, r.covers pa → r.acks s pa .write (ctx.get rt) = false)
    (h : Code.Runs (emuHandle env ctx status pa ia) s w ctx' s') :
    (∃ e ∈ w, e.WritesTo P) ↔ (env.data.access pa size).hits P ∧
      ∀ r ∈ s.regions, r.covers pa → r.permits s pa .write (ctx.get rt) = true := by
  rcases emuHandle_runs h with ⟨hnone, -, -⟩ | ⟨rt', op', v, w', hacc', hop, rfl, -⟩
  · rw [hnone] at hacc
    cases hacc
  rw [hacc] at hacc'
  obtain ⟨rfl, rfl⟩ := Prod.mk.inj (Option.some.inj hacc')
  obtain ⟨ok, w₁, s₁, h₁, -, hres⟩ := emuHandleStore_runs hop
  obtain ⟨-, hno, -⟩ := emuCheckFrom_write h₁
  obtain ⟨rfl, -, hok⟩ := hno (ackAny_eq_false.mpr hack)
  have hperm : ok = true ↔
      ∀ r ∈ s.regions, r.covers pa → r.permits s pa .write (ctx.get rt) = true := by
    rw [hok]
    simp only [permitAll, List.all_eq_true, Bool.or_eq_true, Bool.not_eq_true',
      decide_eq_false_iff_not, or_iff_not_imp_left, not_not]
    rfl
  rw [← hperm]
  rcases hres with ⟨hok', rfl, -⟩ | ⟨hok', rfl, -⟩
  · simp [hok', Event.WritesTo]
  · simp [hok', Event.WritesTo]

/-- The emulator writes to the CSU or the TZASC only for an emulated store, by the store itself or
by the acknowledgement of a port; and a store that is no acknowledgement writes to them exactly if
it reaches them and all regions that cover its address permit it. -/
theorem security_writes {env : Env} {ctx ctx' : NsecCtx} {status pa ia : Word} {s s' : Sys}
    {w : List Event} (h : Code.Runs (emuHandle env ctx status pa ia) s w ctx' s') :
    ((∃ e ∈ w, e.WritesTo SecurityByte) →
      ∃ rt size, emuAccepts env s status pa ia = some (rt, .store size) ∧
        ((env.data.access pa size).hits SecurityByte ∨
          ∃ r ∈ s.regions, r.covers pa ∧ r.check = .gpio ∧ (r.ackAccess s).hits SecurityByte)) ∧
    ∀ rt size, emuAccepts env s status pa ia = some (rt, .store size) →
      (∀ r ∈ s.regions, r.covers pa → r.acks s pa .write (ctx.get rt) = false) →
      ((∃ e ∈ w, e.WritesTo SecurityByte) ↔ (env.data.access pa size).hits SecurityByte ∧
        ∀ r ∈ s.regions, r.covers pa → r.permits s pa .write (ctx.get rt) = true) :=
  ⟨emuHandle_writes h, fun _ _ hacc hack => emuHandle_store_iff hacc hack h⟩

namespace Board

/-- The board with `str r0, [r1]` in non-secure memory, where a store to `pa` traps. -/
def armed : Sys := booted imx6 0xE5810000

def trap (pa : Word) : Kernel NsecCtx := emuHandle imx6 (ctxWith 0xFFFFFFFF) 0x008 pa 0x10000000

/-- The board with an instruction in non-secure memory and a pin of its port secured. -/
def pinSecured (instr : Word) (pin : Nat) : Sys := (gpioOpSecure 0 pin).after (booted imx6 instr)

theorem armed_ok : Booted imx6 armed := booted_of_runs (by decide +kernel)

end Board

theorem security_writes_refused :
    ((∃ e ∈ (Board.trap 0x0209C000 Board.armed).events, e.WritesTo SecurityByte) →
      ∃ rt size, emuAccepts imx6 Board.armed 0x008 0x0209C000 0x10000000 = some (rt, .store size) ∧
        ((imx6.data.access 0x0209C000 size).hits SecurityByte ∨
          ∃ r ∈ Board.armed.regions, r.covers 0x0209C000 ∧ r.check = .gpio ∧
            (r.ackAccess Board.armed).hits SecurityByte)) ∧
    ∀ rt size, emuAccepts imx6 Board.armed 0x008 0x0209C000 0x10000000 = some (rt, .store size) →
      (∀ r ∈ Board.armed.regions, r.covers 0x0209C000 →
        r.acks Board.armed 0x0209C000 .write ((ctxWith 0xFFFFFFFF).get rt) = false) →
      ((∃ e ∈ (Board.trap 0x0209C000 Board.armed).events, e.WritesTo SecurityByte) ↔
        (imx6.data.access 0x0209C000 size).hits SecurityByte ∧
        ∀ r ∈ Board.armed.regions, r.covers 0x0209C000 →
          r.permits Board.armed 0x0209C000 .write ((ctxWith 0xFFFFFFFF).get rt) = true) := by
  obtain ⟨ctx', hrun⟩ :=
    Code.runs_after (m := Board.trap 0x0209C000) (s := Board.armed) (by decide +kernel)
  exact security_writes hrun

/-- After boot, a trapped store to the CSL registers and one to the TZASC are made. -/
theorem security_hardware_written :
    (∃ w, Code.Runs (boot imx6 Board.probes) (resetWithInstr 0xE5810000) w () Board.armed) ∧
      (∃ ctx', Code.Runs (Board.trap 0x021C0004) Board.armed
          (Board.trap 0x021C0004 Board.armed).events ctx'
          ((Board.trap 0x021C0004).after Board.armed) ∧
        ∃ e ∈ (Board.trap 0x021C0004 Board.armed).events, e.WritesTo CsuByte) ∧
      ∃ ctx', Code.Runs (Board.trap 0x021D0000) Board.armed
          (Board.trap 0x021D0000 Board.armed).events ctx'
          ((Board.trap 0x021D0000).after Board.armed) ∧
        ∃ e ∈ (Board.trap 0x021D0000 Board.armed).events, e.WritesTo SecurityByte := by
  obtain ⟨ctx₁, hcsu⟩ :=
    Code.runs_after (m := Board.trap 0x021C0004) (s := Board.armed) (by decide +kernel)
  obtain ⟨ctx₂, htzasc⟩ :=
    Code.runs_after (m := Board.trap 0x021D0000) (s := Board.armed) (by decide +kernel)
  exact ⟨Board.runs_boot (by decide +kernel), ⟨ctx₁, hcsu, by decide +kernel⟩, ctx₂, htzasc,
    by decide +kernel⟩

end SeCloak
