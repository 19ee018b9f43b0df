import SeCloak.Entry.Settings

/-!
# Reading the settings back

`cloak_entry` picks the handler of a call: `a0` is compared for `CLOAK_SET`, but `a1` for
`CLOAK_GET`. Over every sequence of calls the settings that `cloak_entry_get` returns are those of
the last confirmed `CLOAK_SET`; a call reaches it exactly if its two first arguments agree on it.
-/

namespace SeCloak
open Misc

instance (c : SmcCall) : Decidable c.Confirmed := inferInstanceAs (Decidable (_ ∧ _))

/-- The settings of the last confirmed `CLOAK_SET`, or 0. -/
def lastConfirmed (calls : List SmcCall) : Word :=
  calls.foldl (fun p c => if c.Confirmed then c.args.a1 else p) 0

/-! ## One call -/

/-- The lock is free and the settings in force are `p`. -/
def Sys.InForce (s : Sys) (p : Word) : Prop := s.cloak.lock = 0 ∧ s.cloak.prevSettings = p

theorem smcStep_inForce {env : Env} {t : DeviceTable} {s s' : Sys} {c : SmcCall} {p : Word}
    (hs : s.InForce p) (h : smcStep env t s c s') :
    s'.InForce (if c.Confirmed then c.args.a1 else p) := by
  by_cases hset : c.args.a0 = opteeSmcCloakSet
  · obtain ⟨-, w, s₁, ⟨st⟩, rfl⟩ := smcStep_set hs.1 hset h
    refine ⟨rfl, ?_⟩
    have hprev : s₁.cloak.prevSettings =
        if cloakAnswer c.presses = .allow then c.args.a1 else s.cloak.prevSettings :=
      st.prevSettings_eq
    change s₁.cloak.prevSettings = _
    rw [hprev, hs.2]
    exact if_congr (by simp [SmcCall.Confirmed, hset]) rfl rfl
  · obtain ⟨rfl, -⟩ := smcStep_other hs.1 hset h
    rw [if_neg fun hc : c.Confirmed => hset hc.1]
    exact hs

/-- After any calls the settings in force are those of the last confirmed one. -/
theorem steps_inForce {env : Env} {t : DeviceTable} {s₀ s : Sys} {calls : List SmcCall} {p : Word}
    (h₀ : s₀.InForce p) (h : Steps (smcStep env t) s₀ calls s) :
    s.InForce (calls.foldl (fun p c => if c.Confirmed then c.args.a1 else p) p) := by
  induction h generalizing p with
  | nil s => exact h₀
  | cons first rest ih => exact ih (smcStep_inForce h₀ first)

/-! ## Every call of a run -/

/-- What is expected of a call when the settings `p` are in force: `CLOAK_GET` returns them, and
what is neither `CLOAK_GET` nor `CLOAK_SET` is refused without effect. -/
def MeetsGet (p : Word) (s : Sys) (c : SmcCall) (s' : Sys) : Prop :=
  (c.args.a0 = opteeSmcCloakGet → c.res.a0 = opteeSmcReturnOk ∧ c.res.a1 = p) ∧
    (c.args.a0 ≠ opteeSmcCloakSet → c.args.a0 ≠ opteeSmcCloakGet →
      c.res.a0 = opteeSmcReturnEbadcmd ∧ s' = s)

/-- `a1` names `CLOAK_GET` exactly if `a0` does. -/
def SmcCall.Agrees (c : SmcCall) : Prop :=
  c.args.a0 = opteeSmcCloakSet ∨ (c.args.a0 = opteeSmcCloakGet ↔ c.args.a1 = opteeSmcCloakGet)

theorem smcStep_meetsGet {env : Env} {t : DeviceTable} {s s' : Sys} {c : SmcCall} {p : Word}
    (hs : s.InForce p) (h : smcStep env t s c s') : MeetsGet p s c s' ↔ c.Agrees := by
  by_cases hset : c.args.a0 = opteeSmcCloakSet
  · have hne : c.args.a0 ≠ opteeSmcCloakGet := by
      rw [hset]
      decide
    exact ⟨fun _ => Or.inl hset, fun _ => ⟨fun hg => absurd hg hne, fun hn => absurd hset hn⟩⟩
  · obtain ⟨rfl, hres⟩ := smcStep_other hs.1 hset h
    have hok : opteeSmcReturnOk ≠ opteeSmcReturnEbadcmd := by decide
    have hne : opteeSmcCloakGet ≠ opteeSmcCloakSet := by decide
    unfold MeetsGet SmcCall.Agrees
    rw [hres, ← hs.2]
    by_cases ha1 : c.args.a1 = opteeSmcCloakGet
    · by_cases ha0 : c.args.a0 = opteeSmcCloakGet <;> simp [ha0, ha1, hset, hok]
    · by_cases ha0 : c.args.a0 = opteeSmcCloakGet <;> simp [ha0, ha1, hset, hok.symm, hne]

/-- In every sequence of calls from boot, all calls do what is expected of them exactly if `a0`
and `a1` of each agree on `CLOAK_GET`. -/
theorem get_reports_iff {env : Env} {t : DeviceTable} {s₀ s : Sys} {calls : List SmcCall}
    (hlock : s₀.cloak.lock = 0) (hprev : s₀.cloak.prevSettings = 0)
    (h : Steps (smcStep env t) s₀ calls s) :
    (∀ before c after s₁ s₂, calls = before ++ c :: after → Steps (smcStep env t) s₀ before s₁ →
      smcStep env t s₁ c s₂ → MeetsGet (lastConfirmed before) s₁ c s₂) ↔
      ∀ c ∈ calls, c.Agrees := by
  constructor
  · intro hmeets c hc
    obtain ⟨before, after, rfl⟩ := List.append_of_mem hc
    obtain ⟨s₁, hbefore, hrest⟩ := steps_append.mp h
    cases hrest with
    | cons first rest =>
      have hmeet := hmeets before c after s₁ _ rfl hbefore first
      exact (smcStep_meetsGet (steps_inForce ⟨hlock, hprev⟩ hbefore) first).mp hmeet
  · rintro hagree before c after s₁ s₂ rfl hbefore hc
    refine (smcStep_meetsGet (steps_inForce ⟨hlock, hprev⟩ hbefore) hc).mpr ?_
    exact hagree c (by simp)

/-- `CLOAK_GET` as the caller of the interface writes it. -/
def Board.getPlain : SmcCall :=
  ⟨[], ⟨opteeSmcCloakGet, 0, 0, 0, 0, 0, 0, 0⟩, ⟨opteeSmcReturnEbadcmd, 0, 0, 0, 0, 0, 0, 0⟩⟩

/-- Settings that are confirmed, a `CLOAK_GET` that returns them, and a command that there is not. -/
def Board.setSome : SmcCall :=
  ⟨[keyHomepage], ⟨opteeSmcCloakSet, 0x40, 0, 0, 0, 0, 0, 0⟩, ⟨opteeSmcReturnOk, 0x40, 0, 0, 0, 0, 0, 0⟩⟩
def Board.getSome : SmcCall :=
  ⟨[], ⟨opteeSmcCloakGet, opteeSmcCloakGet, 0, 0, 0, 0, 0, 0⟩, ⟨opteeSmcReturnOk, 0x40, 0, 0, 0, 0, 0, 0⟩⟩
def Board.noCommand : SmcCall := ⟨[], ⟨0, 1, 0, 0, 0, 0, 0, 0⟩, ⟨opteeSmcReturnEbadcmd, 1, 0, 0, 0, 0, 0, 0⟩⟩

/-- The board after them. -/
def Board.someAllowed : Sys := Board.setSome.after imx6 Board.table (Board.booted imx6 0)

theorem Board.steps_some : Steps (smcStep imx6 Board.table) (Board.booted imx6 0)
    [Board.setSome, Board.getSome, Board.noCommand] Board.someAllowed := by
  have hset : smcStep imx6 Board.table (Board.booted imx6 0) Board.setSome Board.someAllowed :=
    ⟨_, runs_after_set Board.booted_ok.lock rfl rfl (by decide +kernel)⟩
  obtain ⟨hlock, hprev⟩ := smcStep_inForce (p := 0)
    ⟨Board.booted_ok.lock, Board.booted_ok.prevSettings⟩ hset
  have hget : smcStep imx6 Board.table Board.someAllowed Board.getSome Board.someAllowed := by
    obtain ⟨res, hrun⟩ := Code.runs_after (s := Board.someAllowed)
      (m := cloakEntry imx6 Board.table Board.getSome.presses Board.getSome.args) (by decide +kernel)
    obtain ⟨hsame, hres⟩ := smcStep_other (c := ⟨Board.getSome.presses, Board.getSome.args, res⟩) hlock
      (show Board.getSome.args.a0 ≠ opteeSmcCloakSet by decide) ⟨_, hrun⟩
    rw [if_pos (show Board.getSome.args.a1 = opteeSmcCloakGet by decide), hprev,
      if_pos (show Board.setSome.Confirmed from ⟨rfl, rfl⟩)] at hres
    obtain rfl : res = Board.getSome.res := hres
    rw [hsame] at hrun
    exact ⟨_, hrun⟩
  have hnone : smcStep imx6 Board.table Board.someAllowed Board.noCommand Board.someAllowed :=
    ⟨[], rfl⟩
  exact .cons hset (.cons hget (.cons hnone (.nil _)))

theorem get_reports_iff_board :
    Steps (smcStep imx6 Board.table) (Board.booted imx6 0)
        [Board.setSome, Board.getSome, Board.noCommand] Board.someAllowed ∧
      ∀ before c after s₁ s₂, [Board.setSome, Board.getSome, Board.noCommand] = before ++ c :: after →
        Steps (smcStep imx6 Board.table) (Board.booted imx6 0) before s₁ →
        smcStep imx6 Board.table s₁ c s₂ → MeetsGet (lastConfirmed before) s₁ c s₂ := by
  refine ⟨Board.steps_some, (get_reports_iff Board.booted_ok.lock Board.booted_ok.prevSettings
    Board.steps_some).mpr ?_⟩
  simp only [List.forall_mem_cons]
  exact ⟨Or.inl rfl, Or.inr (by decide), Or.inr (by decide), fun c hc => absurd hc List.not_mem_nil⟩

/-- After settings were confirmed, a `CLOAK_GET` is answered with an error. -/
theorem get_not_reported :
    Steps (smcStep imx6 Board.table) (Board.booted imx6 0) [Board.cloakAll, Board.getPlain]
        (Board.cloaked imx6) ∧
      smcStep imx6 Board.table (Board.cloaked imx6) Board.getPlain (Board.cloaked imx6) ∧
      ¬ MeetsGet (lastConfirmed [Board.cloakAll]) (Board.cloaked imx6) Board.getPlain
        (Board.cloaked imx6) := by
  have hget : smcStep imx6 Board.table (Board.cloaked imx6) Board.getPlain (Board.cloaked imx6) :=
    ⟨[], rfl⟩
  refine ⟨.cons Board.step_cloaked (.cons hget (.nil _)), hget, fun hmeet => ?_⟩
  exact absurd (hmeet.1 rfl).1 (by decide)

end SeCloak
