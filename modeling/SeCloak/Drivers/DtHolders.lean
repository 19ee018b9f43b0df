import SeCloak.Drivers.DtProps
import SeCloak.Misc.Holders

/-!
# Who holds which CSL and which region

The counters of the CSLs and the deny regions are references in the sense of `Misc.Holders`: a
disabled device that can be protected holds the CSL numbers of its `csu` array and one region
for each resource. `Ledger` is the state between two single steps, with the references in
transit; `Accounts` is the state between two switches, when the holders are exactly the
disabled devices.
-/

namespace SeCloak
open Misc

/-- The regions that deny access to the resources of a device. -/
def Device.denials (d : Device) : List Region :=
  d.info.resources.map fun r => ⟨r.address.c0, r.size.c0, .denyAll⟩

def IsCsl (c : Int) : Prop := 0 ≤ c ∧ c < maxCsl

def IsDenial (r : Region) : Prop := r.check = .denyAll

/-- No allocation has failed yet. -/
def Sys.NoFailure (s : Sys) (env : Env) : Prop := ∀ n < s.allocs, env.malloc n = true

/-- The devices `L` hold their CSLs and, unless an allocation failed, their regions; `X` and
`Y` are the references of others. -/
structure Ledger (env : Env) (s : Sys) (L : List Device) (X : List Int) (Y : List Region) :
    Prop where
  csl : Tallied IsCsl (·.info.csu) (fun c => s.csu.counts c.toNat) L X
  denied : s.NoFailure env →
    Tallied IsDenial Device.denials (fun r => (s.regions.count r : Int)) L Y

/-- All CSLs of the device are counted and, unless an allocation failed, all of its regions are
in the list. -/
structure Protected (env : Env) (s : Sys) (d : Device) : Prop where
  csl : ∀ c ∈ d.info.csu, 0 < s.csu.counts c.toNat
  denied : s.NoFailure env → ∀ r ∈ d.denials, r ∈ s.regions

section Steps

variable {env : Env} {s s' : Sys} {w : List Event} {L : List Device} {X : List Int}
  {Y : List Region}

theorem Ledger.congr (h : Ledger env s L X Y) (hcsu : s'.csu.counts = s.csu.counts)
    (hreg : s'.regions = s.regions) (hal : s.allocs ≤ s'.allocs) : Ledger env s' L X Y where
  csl := h.csl.of_eq fun k _ => by rw [hcsu]
  denied hn := by
    have hn' : s.NoFailure env := fun n hlt => hn n (Nat.lt_of_lt_of_le hlt hal)
    rw [hreg]
    exact h.denied hn'

theorem Ledger.perm {X' : List Int} {Y' : List Region} (h : Ledger env s L X Y)
    (hX : X.Perm X') (hY : Y.Perm Y') : Ledger env s L X' Y' :=
  ⟨h.csl.congr hX, fun hn => (h.denied hn).congr hY⟩

/-- Only CSL numbers below `MAX_CSL` are ever counted, so the key of a counter is the number
itself. -/
theorem setCsl_counts_key (c : Csu) {k : Int} (hk : IsCsl k) (p : Bool) :
    ∀ j, IsCsl j → (c.setCsl k.toNat p).counts j.toNat =
      if j = k then (if p then c.counts j.toNat + 1 else c.counts j.toNat - 1)
      else c.counts j.toNat := by
  intro j hj
  have hiff : j.toNat = k.toNat ↔ j = k := by
    have := hk.1
    have := hj.1
    omega
  rw [setCsl_counts, if_congr hiff rfl rfl]
  by_cases hjk : j = k
  · subst hjk; simp
  · simp [hjk]

theorem csuSetCsl_protect {c : Int} {u : Unit}
    (h : Code.Runs (csuSetCsl env c true) s w u s') (hl : Ledger env s L X Y) :
    Ledger env s' L (c :: X) Y ∧ (s.csu.Ok → s'.csu.Ok) := by
  obtain ⟨hlo, hhi, rfl, -⟩ := csuSetCsl_runs h
  refine ⟨⟨hl.csl.take ?_, hl.denied⟩, fun hok => hok.setCsl (Or.inl rfl)⟩
  exact setCsl_counts_key s.csu ⟨hlo, hhi⟩ true

theorem csuSetCsl_release {c : Int} {u : Unit}
    (h : Code.Runs (csuSetCsl env c false) s w u s') (hl : Ledger env s L (c :: X) Y) :
    Ledger env s' L X Y ∧ (s.csu.Ok → s'.csu.Ok) := by
  obtain ⟨hlo, hhi, rfl, -⟩ := csuSetCsl_runs h
  have hpos : 0 < s.csu.counts c.toNat := hl.csl.pos ⟨hlo, hhi⟩ (Or.inr List.mem_cons_self)
  refine ⟨⟨hl.csl.drop ?_, hl.denied⟩, fun hok => hok.setCsl (Or.inr hpos)⟩
  exact setCsl_counts_key s.csu ⟨hlo, hhi⟩ false

theorem emuAddRegion_ledger {base size : Word} {check : EmuCheck} {r : Int}
    (h : Code.Runs (emuAddRegion env base size check) s w r s') (hl : Ledger env s L X Y) :
    Ledger env s' L X (if check = .denyAll then ⟨base, size, check⟩ :: Y else Y) := by
  obtain ⟨-, rfl⟩ := emuAddRegion_runs h
  refine ⟨hl.csl, fun hn => ?_⟩
  have hn' : s.NoFailure env := fun n hlt => hn n (Nat.lt_succ_of_lt hlt)
  have hok : env.malloc s.allocs = true := hn s.allocs (Nat.lt_succ_self _)
  by_cases hd : check = .denyAll
  · rw [if_pos hd]
    refine (hl.denied hn').take fun j _ => ?_
    by_cases hj : j = ⟨base, size, check⟩
    · subst hj; simp [hok]
    · simp [hok, hj, List.count_cons_of_ne (Ne.symm hj)]
  · rw [if_neg hd]
    refine (hl.denied hn').of_eq fun j hj => ?_
    have hne : (⟨base, size, check⟩ : Region) ≠ j := by
      rintro rfl
      exact hd hj
    simp [hok, List.count_cons_of_ne hne]

theorem emuRemoveRegion_release {base size : Word} {u : Unit}
    (h : Code.Runs (emuRemoveRegion base size .denyAll) s w u s')
    (hl : Ledger env s L X (⟨base, size, .denyAll⟩ :: Y)) : Ledger env s' L X Y := by
  obtain ⟨-, rfl⟩ := emuRemoveRegion_runs h
  refine ⟨hl.csl, fun hn => ?_⟩
  have hal := hl.denied hn
  have hpos := hal.pos (k := ⟨base, size, .denyAll⟩) rfl (Or.inr List.mem_cons_self)
  refine hal.drop fun j _ => ?_
  by_cases hj : j = ⟨base, size, .denyAll⟩
  · subst hj
    simp only [List.count_erase_self, if_true] at hpos ⊢
    omega
  · simp [hj, List.count_erase_of_ne hj]

theorem emuRemoveRegion_other {base size : Word} {check : EmuCheck} {u : Unit}
    (hcheck : check ≠ .denyAll) (h : Code.Runs (emuRemoveRegion base size check) s w u s')
    (hl : Ledger env s L X Y) : Ledger env s' L X Y := by
  obtain ⟨-, rfl⟩ := emuRemoveRegion_runs h
  refine ⟨hl.csl, fun hn => (hl.denied hn).of_eq fun j hj => ?_⟩
  have hne : j ≠ ⟨base, size, check⟩ := by
    rintro rfl
    exact hcheck hj
  simp [List.count_erase_of_ne hne]

/-- A holder is protected, provided its CSL numbers exist. -/
theorem Ledger.protected {d : Device} (hl : Ledger env s L X Y) (hd : d ∈ L)
    (hcsl : ∀ c ∈ d.info.csu, IsCsl c) : Protected env s d where
  csl c hc := hl.csl.pos_of_holder (hcsl c hc) hd hc
  denied hn r hr := by
    have hdeny : IsDenial r := by
      obtain ⟨-, -, rfl⟩ := List.mem_map.mp hr
      rfl
    have hpos := (hl.denied hn).pos_of_holder hdeny hd hr
    exact List.count_pos_iff.mp (by omega)

end Steps

/-! ## Loops over the CSLs and the resources of one device -/

/-- In every state that a run logs the flags are `flag` and the devices `L` hold theirs. -/
def Covered (env : Env) (L : List Device) (flag : Device → Bool) (w : List Event) : Prop :=
  ∀ t, .prot t ∈ w → t.enabled = flag ∧ ∃ X Y, Ledger env t L X Y

theorem Covered.nil (env : Env) (L : List Device) (flag : Device → Bool) :
    Covered env L flag [] := by
  intro t ht
  cases ht

theorem Covered.append {env : Env} {L : List Device} {flag : Device → Bool} {w w' : List Event}
    (h : Covered env L flag w) (h' : Covered env L flag w') : Covered env L flag (w ++ w') := by
  intro t ht
  rcases List.mem_append.mp ht with ht | ht
  · exact h t ht
  · exact h' t ht

theorem Covered.single {env : Env} {s : Sys} {L : List Device} {X : List Int} {Y : List Region}
    {flag : Device → Bool} (hl : Ledger env s L X Y) (hflag : s.enabled = flag) :
    Covered env L flag [.prot s] := by
  intro t ht
  have hts : t = s := by simpa using ht
  subst hts
  exact ⟨hflag, X, Y, hl⟩

theorem releaseCsls_ledger {env : Env} {cs : List Int} {s s' : Sys} {w : List Event} {u : Unit}
    {L : List Device} {X : List Int} {Y : List Region}
    (h : Code.Runs (Code.forEach (fun c => csuSetCsl env c false) cs) s w u s')
    (hl : Ledger env s L (cs ++ X) Y) :
    Ledger env s' L X Y ∧ (s.csu.Ok → s'.csu.Ok) ∧ Covered env L s.enabled w ∧
      (protStates w).length = cs.length := by
  induction cs generalizing s w with
  | nil =>
    obtain ⟨rfl, rfl⟩ := Code.runs_forEach_nil.mp h
    exact ⟨hl, id, Covered.nil _ _ _, rfl⟩
  | cons c cs ih =>
    obtain ⟨w₁, s₁, w₂, h₁, h₂, rfl⟩ := Code.runs_forEach_cons.mp h
    obtain ⟨hl₁, hok₁⟩ := csuSetCsl_release h₁ hl
    have hen₁ := (csuSetCsl_policyOnly h₁).2.1
    obtain ⟨-, -, -, rfl⟩ := csuSetCsl_runs h₁
    obtain ⟨hl₂, hok₂, hcov, hlen⟩ := ih h₂ hl₁
    refine ⟨hl₂, hok₂ ∘ hok₁, (Covered.single hl₁ hen₁).append (hen₁ ▸ hcov), ?_⟩
    rw [List.singleton_append, protStates_prot, List.length_cons, hlen, List.length_cons]

theorem protectCsls_ledger {env : Env} {cs : List Int} {s s' : Sys} {w : List Event} {u : Unit}
    {L : List Device} {X : List Int} {Y : List Region}
    (h : Code.Runs (Code.forEach (fun c => csuSetCsl env c true) cs) s w u s')
    (hl : Ledger env s L X Y) :
    Ledger env s' L (cs ++ X) Y ∧ (s.csu.Ok → s'.csu.Ok) ∧ Covered env L s.enabled w ∧
      ∀ c ∈ cs, IsCsl c := by
  induction cs generalizing s w X with
  | nil =>
    obtain ⟨rfl, rfl⟩ := Code.runs_forEach_nil.mp h
    exact ⟨hl, id, Covered.nil _ _ _, by simp⟩
  | cons c cs ih =>
    obtain ⟨w₁, s₁, w₂, h₁, h₂, rfl⟩ := Code.runs_forEach_cons.mp h
    obtain ⟨hl₁, hok₁⟩ := csuSetCsl_protect h₁ hl
    have hen₁ := (csuSetCsl_policyOnly h₁).2.1
    obtain ⟨hlo, hhi, -, rfl⟩ := csuSetCsl_runs h₁
    obtain ⟨hl₂, hok₂, hcov, hcs⟩ := ih h₂ hl₁
    refine ⟨hl₂.perm List.perm_middle (List.Perm.refl _), hok₂ ∘ hok₁,
      (Covered.single hl₁ hen₁).append (hen₁ ▸ hcov), ?_⟩
    intro k hk
    rcases List.mem_cons.mp hk with rfl | hk
    · exact ⟨hlo, hhi⟩
    · exact hcs k hk

theorem removeDenials_ledger {env : Env} {rs : List Resource} {s s' : Sys} {w : List Event}
    {u : Unit} {L : List Device} {X : List Int} {Y : List Region}
    (h : Code.Runs (Code.forEach
      (fun r => emuRemoveRegion r.address.c0 r.size.c0 .denyAll) rs) s w u s')
    (hl : Ledger env s L X (rs.map (fun r => ⟨r.address.c0, r.size.c0, .denyAll⟩) ++ Y)) :
    Ledger env s' L X Y ∧ s'.csu = s.csu ∧ Covered env L s.enabled w ∧
      (protStates w).length = rs.length := by
  induction rs generalizing s w with
  | nil =>
    obtain ⟨rfl, rfl⟩ := Code.runs_forEach_nil.mp h
    exact ⟨hl, rfl, Covered.nil _ _ _, rfl⟩
  | cons r rs ih =>
    obtain ⟨w₁, s₁, w₂, h₁, h₂, rfl⟩ := Code.runs_forEach_cons.mp h
    have hl₁ := emuRemoveRegion_release h₁ hl
    obtain ⟨rfl, hs₁⟩ := emuRemoveRegion_runs h₁
    have hen₁ : s₁.enabled = s.enabled := by rw [hs₁]
    obtain ⟨hl₂, hcsu, hcov, hlen⟩ := ih h₂ hl₁
    refine ⟨hl₂, hcsu.trans (by rw [hs₁]), (Covered.single hl₁ hen₁).append (hen₁ ▸ hcov), ?_⟩
    rw [List.singleton_append, protStates_prot, List.length_cons, hlen, List.length_cons]

theorem addDenials_ledger {env : Env} {rs : List Resource} {s s' : Sys} {w : List Event}
    {u : Unit} {L : List Device} {X : List Int} {Y : List Region}
    (h : Code.Runs (Code.forEach (fun r => do
      let _ ← emuAddRegion env r.address.c0 r.size.c0 .denyAll
      pure ()) rs) s w u s')
    (hl : Ledger env s L X Y) :
    Ledger env s' L X (rs.map (fun r => ⟨r.address.c0, r.size.c0, .denyAll⟩) ++ Y) ∧
      s'.csu = s.csu ∧ Covered env L s.enabled w := by
  induction rs generalizing s w Y with
  | nil =>
    obtain ⟨rfl, rfl⟩ := Code.runs_forEach_nil.mp h
    exact ⟨hl, rfl, Covered.nil _ _ _⟩
  | cons r rs ih =>
    obtain ⟨w₁, s₁, w₂, h₁, h₂, rfl⟩ := Code.runs_forEach_cons.mp h
    obtain ⟨w₃, ret, s₃, w₄, h₃, h₄, rfl⟩ := Code.runs_bind.mp h₁
    obtain ⟨rfl, -, rfl⟩ := Code.runs_pure.mp h₄
    have hl₁ := emuAddRegion_ledger h₃ hl
    rw [if_pos rfl] at hl₁
    obtain ⟨rfl, hs₁⟩ := emuAddRegion_runs h₃
    have hen₁ : s₁.enabled = s.enabled := by rw [hs₁]
    obtain ⟨hl₂, hcsu, hcov⟩ := ih h₂ hl₁
    refine ⟨hl₂.perm (List.Perm.refl _) List.perm_middle, hcsu.trans (by rw [hs₁]), ?_⟩
    rw [List.append_nil]
    exact (Covered.single hl₁ hen₁).append (hen₁ ▸ hcov)

/-- Releasing a device gives its references back one by one, while the holders `L` keep
theirs. -/
theorem dtProtect_release {env : Env} {d : Device} {s s' : Sys} {w : List Event} {u : Unit}
    {L : List Device} {X : List Int} {Y : List Region}
    (h : Code.Runs (dtProtect env d true) s w u s')
    (hl : Ledger env s L (d.info.csu ++ X) (d.denials ++ Y)) :
    Ledger env s' L X Y ∧ (s.csu.Ok → s'.csu.Ok) ∧ Covered env L s.enabled w ∧
      (protStates w).length = d.info.csu.length + d.info.resources.length := by
  obtain ⟨w₁, _, s₁, w₂, h₁, h₂, rfl⟩ := Code.runs_bind.mp h
  obtain ⟨hl₁, hok₁, hcov₁, hlen₁⟩ := releaseCsls_ledger h₁ hl
  have hen₁ : s₁.enabled = s.enabled :=
    (Code.within_forEach protectOnly_closed (fun c _ => csuSetCsl_policyOnly) h₁).2.1
  obtain ⟨hl₂, hcsu, hcov₂, hlen₂⟩ := removeDenials_ledger h₂ hl₁
  refine ⟨hl₂, fun hok => hcsu ▸ hok₁ hok, hcov₁.append (hen₁ ▸ hcov₂), ?_⟩
  rw [protStates_append, List.length_append, hlen₁, hlen₂]

/-- Protecting a device takes its references one by one, while the holders `L` keep theirs. -/
theorem dtProtect_protect {env : Env} {d : Device} {s s' : Sys} {w : List Event} {u : Unit}
    {L : List Device} {X : List Int} {Y : List Region}
    (h : Code.Runs (dtProtect env d false) s w u s') (hl : Ledger env s L X Y) :
    Ledger env s' L (d.info.csu ++ X) (d.denials ++ Y) ∧ (s.csu.Ok → s'.csu.Ok) ∧
      Covered env L s.enabled w ∧ ∀ c ∈ d.info.csu, IsCsl c := by
  obtain ⟨w₁, _, s₁, w₂, h₁, h₂, rfl⟩ := Code.runs_bind.mp h
  obtain ⟨hl₁, hcsu, hcov₁⟩ := addDenials_ledger h₁ hl
  have hen₁ : s₁.enabled = s.enabled := by
    refine (Code.within_forEach protectOnly_closed (fun r _ => ?_) h₁).2.1
    exact Code.within_bind protectOnly_closed emuAddRegion_policyOnly
      fun _ => Code.within_pure protectOnly_closed ()
  obtain ⟨hl₂, hok₂, hcov₂, hcs⟩ := protectCsls_ledger h₂ hl₁
  exact ⟨hl₂, fun hok => hok₂ (hcsu ▸ hok), hcov₁.append (hen₁ ▸ hcov₂), hcs⟩

/-! ## Switches -/

/-- Between two switches the holders are the disabled devices that can be protected, and `X`
are the CSLs that ports and framebuffer hold. The registers show the counters as long as nobody
else wrote to them. -/
structure Accounts (env : Env) (clean : Prop) (X : List Int) (s : Sys) (L : List Device) :
    Prop where
  nodup : L.Nodup
  mem : ∀ d, d ∈ L ↔ d.canProtect = true ∧ s.enabled d = false
  ledger : Ledger env s L X []
  range : ∀ d ∈ L, ∀ c ∈ d.info.csu, IsCsl c
  ok : clean → s.csu.Ok

theorem Accounts.congr {env : Env} {clean : Prop} {X : List Int} {s s' : Sys} {L : List Device}
    (h : Accounts env clean X s L) (hen : s'.enabled = s.enabled) (hcsu : s'.csu = s.csu)
    (hreg : s'.regions = s.regions) (hal : s.allocs ≤ s'.allocs) : Accounts env clean X s' L where
  nodup := h.nodup
  mem d := by rw [h.mem, hen]
  ledger := h.ledger.congr (by rw [hcsu]) hreg hal
  range := h.range
  ok hc := by
    rw [hcsu]
    exact h.ok hc

theorem Accounts.perm {env : Env} {clean : Prop} {X X' : List Int} {s : Sys} {L : List Device}
    (h : Accounts env clean X s L) (hX : X.Perm X') : Accounts env clean X' s L :=
  { h with ledger := h.ledger.perm hX (List.Perm.refl _) }

/-- `s` with the flag of one device set. -/
def Sys.flagged (s : Sys) (d : Device) (b : Bool) : Sys :=
  { s with enabled := Function.update s.enabled d b }

theorem flagged_enabled (s : Sys) (d e : Device) (b : Bool) :
    (s.flagged d b).enabled e = if e = d then b else s.enabled e := Function.update_apply ..

section Switch

variable {env : Env} {clean : Prop} {X : List Int} {d : Device} {s s' : Sys} {w : List Event}
  {L : List Device} {u : Unit}

/-- A holder is released: it is no holder any more. -/
theorem Accounts.release (ha : Accounts env clean X s L) (hp : d.canProtect = true)
    (hoff : s.enabled d = false) (h : Code.Runs (dtProtect env d true) s w u s') :
    Covered env (L.erase d) s.enabled w ∧ Accounts env clean X (s'.flagged d true) (L.erase d) ∧
      (protStates w).length = d.info.csu.length + d.info.resources.length := by
  have hdL : d ∈ L := (ha.mem d).mpr ⟨hp, hoff⟩
  have hopen : Ledger env s (L.erase d) (d.info.csu ++ X) (d.denials ++ []) :=
    ⟨ha.ledger.csl.opened hdL, fun hn => (ha.ledger.denied hn).opened hdL⟩
  obtain ⟨hl, hok, hcov, hlen⟩ := dtProtect_release h hopen
  have hen : s'.enabled = s.enabled := (dtProtect_policyOnly h).2.1
  refine ⟨hcov, ⟨ha.nodup.erase d, fun e => ?_, hl.congr rfl rfl (Nat.le_refl _),
    fun e he => ha.range e (List.mem_of_mem_erase he), fun hc => hok (ha.ok hc)⟩, hlen⟩
  rw [ha.nodup.mem_erase_iff, ha.mem, flagged_enabled, hen]
  by_cases hed : e = d <;> simp [hed]

/-- A device that can be protected becomes a holder. -/
theorem Accounts.protect (ha : Accounts env clean X s L) (hp : d.canProtect = true)
    (hon : s.enabled d = true) (h : Code.Runs (dtProtect env d false) s w u s') :
    Covered env (L.erase d) s.enabled w ∧ Accounts env clean X (s'.flagged d false) (d :: L) := by
  have hdL : d ∉ L := by
    intro hd
    have hoff := ((ha.mem d).mp hd).2
    rw [hon] at hoff
    cases hoff
  obtain ⟨hl, hok, hcov, hcs⟩ := dtProtect_protect h ha.ledger
  have hclosed : Ledger env s' (d :: L) X [] := ⟨hl.csl.closed, fun hn => (hl.denied hn).closed⟩
  have hen : s'.enabled = s.enabled := (dtProtect_policyOnly h).2.1
  rw [List.erase_of_not_mem hdL]
  refine ⟨hcov, List.nodup_cons.mpr ⟨hdL, ha.nodup⟩, fun e => ?_,
    hclosed.congr rfl rfl (Nat.le_refl _), fun e he => ?_, fun hc => hok (ha.ok hc)⟩
  · rw [List.mem_cons, ha.mem, flagged_enabled, hen]
    by_cases hed : e = d <;> simp [hed, hp]
  · rcases List.mem_cons.mp he with rfl | he
    · exact hcs
    · exact ha.range e he

/-- The flag of a device that cannot be protected is not in the accounts. -/
theorem Accounts.unprotected (ha : Accounts env clean X s L) (hp : d.canProtect = false)
    (b : Bool) : Accounts env clean X (s.flagged d b) L := by
  refine ⟨ha.nodup, fun e => ?_, ha.ledger.congr rfl rfl (Nat.le_refl _), ha.range, ha.ok⟩
  rw [ha.mem, flagged_enabled]
  by_cases hed : e = d
  · subst hed
    simp [hp]
  · simp [hed]

/-- One switch of a device, with the events in the state that others see. -/
theorem dtEnableDevice_accounts {b r : Bool} (h : Code.Runs (dtEnableDevice env d b) s w r s')
    (ha : Accounts env clean X s L) :
    Covered env (L.erase d) s.enabled w ∧ (∃ L', Accounts env clean X s' L') ∧
      (d.canProtect = true → s.enabled d = false → b = true →
        (protStates w).length = d.info.csu.length + d.info.resources.length) := by
  obtain ⟨-, ⟨heq, rfl, rfl⟩ | ⟨hne, s₁, s₂, hirq, hprot, rfl⟩⟩ := dtEnableDevice_runs h
  · refine ⟨Covered.nil _ _ _, ⟨L, ha⟩, fun _ hoff hb => ?_⟩
    rw [heq, hb] at hoff
    cases hoff
  obtain ⟨-, hlines, -⟩ := dtEnableIrqs_runs hirq
  have hen₁ := hlines.enabled
  have ha₁ : Accounts env clean X s₁ L :=
    ha.congr hen₁ (by rw [hlines.rest]) (by rw [hlines.rest]) hlines.policyOnly.allocs
  rcases hprot with ⟨hp, hprot⟩ | ⟨hp, rfl, rfl⟩
  · cases b with
    | true =>
      have hoff : s₁.enabled d = false := by
        rw [hen₁]
        simpa using hne
      obtain ⟨hcov, ha₂, hlen⟩ := ha₁.release hp hoff hprot
      exact ⟨hen₁ ▸ hcov, ⟨L.erase d, ha₂⟩, fun _ _ _ => hlen⟩
    | false =>
      have hon : s₁.enabled d = true := by
        rw [hen₁]
        simpa using hne
      obtain ⟨hcov, ha₂⟩ := ha₁.protect hp hon hprot
      exact ⟨hen₁ ▸ hcov, ⟨d :: L, ha₂⟩, fun _ _ hb => by cases hb⟩
  · refine ⟨Covered.nil _ _ _, ⟨L, ha₁.unprotected hp b⟩, fun hp' => ?_⟩
    rw [hp] at hp'
    cases hp'

end Switch

/-- The accounts are kept by every switch. -/
def Balanced (env : Env) (clean : Prop) (X : List Int) (s : Sys) : Prop :=
  ∃ L, Accounts env clean X s L

/-- A disabled device that can be protected has its CSLs counted, and their fields say so if the
registers are `clean`. -/
theorem Balanced.shielded {env : Env} {clean : Prop} {X : List Int} {s : Sys} {p : Device}
    (hb : Balanced env clean X s) (hp : p.canProtect = true) (hoff : s.enabled p = false) :
    (∀ c ∈ p.info.csu, 0 < s.csu.counts c.toNat) ∧
      (clean → ∀ c ∈ p.info.csu, s.csu.field c.toNat = 0x33) := by
  obtain ⟨L, ha⟩ := hb
  have hpL : p ∈ L := (ha.mem p).mpr ⟨hp, hoff⟩
  have hprot := ha.ledger.protected hpL (ha.range p hpL)
  refine ⟨hprot.csl, fun hc c hcsl => ?_⟩
  have hrange := ha.range p hpL c hcsl
  have hlt : c.toNat < maxCsl := by
    have := hrange.1
    have := hrange.2
    omega
  rw [(ha.ok hc).field c.toNat hlt, if_pos (hprot.csl c hcsl)]

theorem dtEnableDevice_balanced {env : Env} {clean : Prop} {X : List Int} {d : Device} {b : Bool} :
    Code.Within (dtEnableDevice env d b) (Code.Preserves (Balanced env clean X)) := by
  intro s w r s' h ⟨L, ha⟩
  exact (dtEnableDevice_accounts h ha).2.1

theorem dtEnableClass_balanced {env : Env} {clean : Prop} {X : List Int} {t : DeviceTable}
    {name : CString} {b : Bool} :
    Code.Within (dtEnableClass env t name b) (Code.Preserves (Balanced env clean X)) :=
  within_dtEnableClass (Code.preserves_closed _) fun _ => dtEnableDevice_balanced

end SeCloak
