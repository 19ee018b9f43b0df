import SeCloak.Drivers.FbParams
import SeCloak.Emulation.Security
import SeCloak.Emulation.Stores
import SeCloak.Misc.Steps

/-!
# The buffer addresses of the display

While the framebuffer is acquired, `EBA0` and `EBA1` of channel 23 and `EBA0` of channel 69 lead to
the memory that only the secure world can write. `fb_emu_check` refuses a store that starts at the
first byte of one of their three words. `screen_kept` says that they stay where they are as long as
every store either starts there or has no byte in these words; a store that starts elsewhere and
reaches into a word is made.
-/

namespace SeCloak
open Misc

/-! ## The fields -/

/-- The CPMEM words of the buffer addresses. -/
def EbaWord (i : Nat) : Prop :=
  i = ipuReg ipuChan0 1 0 ∨ i = ipuReg ipuChan0 1 0 + 1 ∨ i = ipuReg ipuChan1 1 0

instance : DecidablePred EbaWord := fun _ => inferInstanceAs (Decidable (_ ∨ _))

/-- `EBA0` and `EBA1` of channel 23 and `EBA0` of channel 69 (`imx_fb.c:138-140`). -/
def ebas (m : Nat → Word) : Word × Word × Word :=
  (ipuChParamReadField m ipuChan0 1 0 29, ipuChParamReadField m ipuChan0 1 29 29,
    ipuChParamReadField m ipuChan1 1 0 29)

/-- The physical address is in one of these words. -/
def Sys.EbaByte (s : Sys) (pa : Word) : Prop :=
  EbaWord ((pa - (s.fb.basePaddr + ipuCpmemOffset)).toNat / 4)

instance (s : Sys) : DecidablePred s.EbaByte := fun _ => inferInstanceAs (Decidable (EbaWord _))

/-- The fields lie in these words. -/
theorem ebas_congr {m m' : Nat → Word} (h : ∀ i, EbaWord i → m' i = m i) : ebas m' = ebas m := by
  have h₀ := h _ (Or.inl rfl)
  have h₁ := h _ (Or.inr (Or.inl rfl))
  have h₂ := h _ (Or.inr (Or.inr rfl))
  have hreg : ipuReg ipuChan0 1 29 = ipuReg ipuChan0 1 0 := rfl
  unfold ebas ipuChParamReadField
  simp only [hreg, h₀, h₁, h₂]
  rfl

/-- Bits that were cleared and set to `v`. -/
theorem cleared_or_and {x keep v mask : Word} (h : keep &&& mask = 0#32) :
    (x &&& keep ||| v) &&& mask = v &&& mask := by
  rw [BitVec.and_or_distrib_right, BitVec.and_assoc, h, BitVec.and_zero, BitVec.zero_or]

/-- The last three fields that `fb_acquire` programs are the buffer addresses. -/
theorem ebas_written (m : Nat → Word) :
    ebas (ipuChParamWriteField (ipuChParamWriteField (ipuChParamWriteField m
      ipuChan0 1 0 29 (fbmemStart / 8)) ipuChan0 1 29 29 (fbmemStart / 8))
      ipuChan1 1 0 29 (fbmemStart / 8)) = (fbmemStart / 8, fbmemStart / 8, fbmemStart / 8) := by
  have hlow : ∀ x : Word, (x &&& 0xE0000000 ||| 0x09700000) &&& 0x1FFFFFFF = 0x09700000 := by
    intro x
    rw [cleared_or_and (by decide)]
    rfl
  have hhigh : ∀ x : Word, (x &&& 0xFC000000 ||| 0x012E0000) &&& 0x03FFFFFF = 0x012E0000 := by
    intro x
    rw [cleared_or_and (by decide)]
    rfl
  have hlow' : ∀ x : Word, 0x1FFFFFFF &&& (x &&& 0xE0000000 ||| 0x09700000) = 0x09700000 := by
    intro x
    rw [BitVec.and_comm, hlow]
  simp only [BitVec.ofNat_eq_ofNat] at hlow hhigh hlow'
  simp [ebas, ipuChParamReadField, ipuChParamWriteField, ipuReg, ipuChan0, ipuChan1, fbmemStart,
    hlow, hhigh, hlow']

theorem writeFields_foldl {write : Nat × Nat × Nat × Nat × Word → Kernel Unit}
    (hwrite : ∀ f, write f =
      modifyCpmem fun m => ipuChParamWriteField m f.1 f.2.1 f.2.2.1 f.2.2.2.1 f.2.2.2.2)
    {fields : List (Nat × Nat × Nat × Nat × Word)} {s s' : Sys} {w : List Event} {u : Unit}
    (h : Code.Runs (Code.forEach write fields) s w u s') :
    s'.fb.cpmem = fields.foldl
      (fun m f => ipuChParamWriteField m f.1 f.2.1 f.2.2.1 f.2.2.2.1 f.2.2.2.2) s.fb.cpmem := by
  induction fields generalizing s w with
  | nil =>
    obtain ⟨-, rfl⟩ := Code.runs_forEach_nil.mp h
    rfl
  | cons f fields ih =>
    obtain ⟨w₁, s₁, w₂, h₁, h₂, rfl⟩ := Code.runs_forEach_cons.mp h
    rw [hwrite] at h₁
    obtain ⟨-, -, rfl⟩ := modifyCpmem_runs h₁
    rw [ih h₂]
    rfl

/-- `fb_acquire` points the display at the secure framebuffer. -/
theorem fbAcquire_ebas {env : Env} {r g b : Byte} {s s' : Sys} {w : List Event}
    {res : Option FbInfo} (h : Code.Runs (fbAcquire env r g b) s w res s') :
    ebas s'.fb.cpmem = (fbmemStart / 8, fbmemStart / 8, fbmemStart / 8) := by
  rw [fbAcquire, Code.runs_get_bind] at h
  obtain ⟨w₁, ret, s₁, v₁, h₁, k₁, -⟩ := Code.runs_bind.mp h
  obtain ⟨w₂, _, s₂, v₂, h₂, k₂, -⟩ := Code.runs_bind.mp k₁
  obtain ⟨w₃, m, s₃, v₃, h₃, k₃, -⟩ := Code.runs_bind.mp k₂
  obtain ⟨w₄, _, s₄, v₄, h₄, k₄, -⟩ := Code.runs_bind.mp k₃
  obtain ⟨w₅, _, s₅, v₅, h₅, k₅, -⟩ := Code.runs_bind.mp k₄
  obtain ⟨-, -, rfl⟩ := Code.runs_pure.mp k₅
  rw [writeFields_foldl (fun _ => rfl) h₅]
  unfold fbFields
  simp only [List.foldl_cons, List.foldl_nil]
  exact ebas_written _

/-! ## Stores -/

/-- A store at `pa` that some region refuses without looking at the value: one with `emu_deny_all`,
or the region of the display if the store starts at the first byte of a buffer address. -/
def Sys.Refuses (s : Sys) (pa : Word) : Prop :=
  ∃ r ∈ s.regions, r.covers pa ∧ (r.check = .denyAll ∨ (r.check = .fb ∧
    (pa - r.base = 0x3005E0 ∨ pa - r.base = 0x3005E4 ∨ pa - r.base = 0x301160)))

theorem Sys.Refuses.permits {s : Sys} {pa : Word} (h : s.Refuses pa) :
    ∃ r ∈ s.regions, r.covers pa ∧ ∀ u value, r.permits u pa .write value = false := by
  obtain ⟨r, hr, hcov, hcheck⟩ := h
  refine ⟨r, hr, hcov, fun u value => ?_⟩
  unfold Region.permits
  rcases hcheck with hc | ⟨hc, hoff⟩
  · rw [hc]
  · rw [hc]
    unfold fbEmuCheck
    dsimp only
    rw [if_pos hoff]
    rfl

/-- What happens while the framebuffer is acquired: an abort of the non-secure world is handled, or
the list of regions changes. -/
inductive Trap where
  | abort (ctx : NsecCtx) (status pa ia : Word)
  | regions (rs : List Region)

def trapStep (env : Env) (s : Sys) : Trap → Sys → Prop
  | .abort ctx status pa ia, s' => ∃ w ctx', Code.Runs (emuHandle env ctx status pa ia) s w ctx' s'
  | .regions rs, s' => s' = { s with regions := rs }

/-- A store of the step is refused, or has no byte in the words of the buffer addresses. -/
def Trap.Outside (env : Env) (s : Sys) : Trap → Prop
  | .abort _ status pa ia => ∀ rt size, emuAccepts env s status pa ia = some (rt, .store size) →
      s.Refuses pa ∨ ¬ (env.data.access pa size).hits s.EbaByte
  | .regions _ => True

theorem store_eba {env : Env} {s : Sys} {a : Access} {value : Word} (h : ¬ a.hits s.EbaByte)
    {i : Nat} (hi : EbaWord i) : (s.store env a value).fb.cpmem i = s.fb.cpmem i := by
  refine (store_invariant (I := fun t => t.fb.basePaddr = s.fb.basePaddr ∧
    t.fb.cpmem i = s.fb.cpmem i) (fun k hk t ht => ?_) ⟨rfl, rfl⟩).2
  constructor
  · rw [(writeByte_busOnly env t (a.byte k) (getLane value k)).rest]
    exact ht.1
  · rw [writeByte_cpmem, ht.2]
    intro hword
    apply h
    refine ⟨k, hk, ?_⟩
    unfold Sys.EbaByte
    rw [← ht.1, hword]
    exact hi

theorem emuHandle_eba {env : Env} {ctx ctx' : NsecCtx} {status pa ia : Word} {s s' : Sys}
    {w : List Event} (hout : (Trap.abort ctx status pa ia).Outside env s)
    (h : Code.Runs (emuHandle env ctx status pa ia) s w ctx' s') {i : Nat} (hi : EbaWord i) :
    s'.fb.cpmem i = s.fb.cpmem i := by
  rcases emuHandle_runs h with ⟨-, -, rfl⟩ | ⟨rt, op, v, w', hacc, hop, -, -⟩
  · rfl
  cases op with
  | load size sign =>
    obtain ⟨rfl, -⟩ := emuHandleLoad_runs hop
    rfl
  | store size =>
    obtain ⟨ok, w₁, s₁, h₁, -, hres⟩ := emuHandleStore_runs hop
    obtain ⟨hack, hperm⟩ := emuCheckFrom_acked h₁
    have hfb : s₁.fb = s.fb := by rw [hack.rest]
    rcases hres with ⟨hok, -, rfl⟩ | ⟨-, -, rfl⟩
    · rcases hout rt size hacc with href | hno
      · -- a store that is refused is not made
        obtain ⟨r, hr, hcov, hall⟩ := href.permits
        obtain ⟨u, -, hpu⟩ := hperm hok r hr hcov
        exact absurd (hpu.symm.trans (hall u _)) (by decide)
      · rw [store_eba ?_ hi, hfb]
        unfold Sys.EbaByte at hno ⊢
        rw [hfb]
        exact hno
    · rw [hfb]

/-- From the return of `fb_acquire` on, through any aborts and any changes of the regions, the
display shows the secure framebuffer as long as every store that is handled is refused or has no
byte in the words of the buffer addresses. -/
theorem screen_kept {env : Env} {r g b : Byte} {s s₁ s' : Sys} {w : List Event}
    {res : Option FbInfo} {ts : List Trap} (hacq : Code.Runs (fbAcquire env r g b) s w res s₁)
    (hrun : Steps (fun s t s' => trapStep env s t s' ∧ t.Outside env s) s₁ ts s') :
    ebas s'.fb.cpmem = ebas s₁.fb.cpmem ∧
      ebas s'.fb.cpmem = (fbmemStart / 8, fbmemStart / 8, fbmemStart / 8) := by
  have hstep : ∀ t ∈ ts, ∀ u u', (trapStep env u t u' ∧ t.Outside env u) →
      ebas u.fb.cpmem = ebas s₁.fb.cpmem → ebas u'.fb.cpmem = ebas s₁.fb.cpmem := by
    rintro t - u u' ⟨hstep, hout⟩ hu
    cases t with
    | abort ctx status pa ia =>
      obtain ⟨w', ctx', h⟩ := hstep
      have hsame : ebas u'.fb.cpmem = ebas u.fb.cpmem := ebas_congr fun i hi => emuHandle_eba hout h hi
      exact hsame.trans hu
    | regions rs =>
      rw [hstep]
      exact hu
  have hkept : ebas s'.fb.cpmem = ebas s₁.fb.cpmem := by
    refine hrun.invariant (I := fun t => ebas t.fb.cpmem = ebas s₁.fb.cpmem) ?_ ?_
    · exact hstep
    · exact Eq.refl _
  exact ⟨hkept, hkept.trans (fbAcquire_ebas hacq)⟩

namespace Board

/-- The board with an instruction in non-secure memory and the framebuffer acquired. -/
def acquired (instr : Word) : Sys := (fbAcquire imx6 0 0 0).after (booted imx6 instr)

theorem acquired_runs {instr : Word}
    (h : (fbAcquire imx6 0 0 0).succeeds (booted imx6 instr) = true) :
    ∃ w res, Code.Runs (fbAcquire imx6 0 0 0) (booted imx6 instr) w res (acquired instr) := by
  obtain ⟨res, hrun⟩ := Code.runs_after h
  exact ⟨_, res, hrun⟩

end Board

/-- `str r0, [r1]` at the first byte of `EBA0`. -/
theorem screen_kept_word :
    ebas ((Board.trap 0x027005E0).after (Board.acquired 0xE5810000)).fb.cpmem =
        ebas (Board.acquired 0xE5810000).fb.cpmem ∧
      ebas ((Board.trap 0x027005E0).after (Board.acquired 0xE5810000)).fb.cpmem =
        (fbmemStart / 8, fbmemStart / 8, fbmemStart / 8) := by
  obtain ⟨w, res, hacq⟩ := @Board.acquired_runs 0xE5810000 (by decide +kernel)
  obtain ⟨ctx', htrap⟩ := Code.runs_after (m := Board.trap 0x027005E0)
    (s := Board.acquired 0xE5810000) (by decide +kernel)
  have href : (Board.acquired 0xE5810000).Refuses 0x027005E0 :=
    ⟨⟨0x02400000, 0x400000, .fb⟩, by decide +kernel, by decide, Or.inr ⟨rfl, by decide⟩⟩
  have hstep : trapStep imx6 (Board.acquired 0xE5810000)
      (.abort (ctxWith 0xFFFFFFFF) 0x008 0x027005E0 0x10000000)
      ((Board.trap 0x027005E0).after (Board.acquired 0xE5810000)) := ⟨_, ctx', htrap⟩
  exact screen_kept hacq (.cons ⟨hstep, fun _ _ _ => Or.inl href⟩ (.nil _))

/-- `strb r0, [r1]` at the second byte of `EBA0` moves the buffer. -/
theorem screen_redirected :
    ∃ w res ctx' w', Code.Runs (fbAcquire imx6 0 0 0) (Board.booted imx6 0xE5C10000) w res
        (Board.acquired 0xE5C10000) ∧
      Code.Runs (Board.trap 0x027005E1) (Board.acquired 0xE5C10000) w' ctx'
        ((Board.trap 0x027005E1).after (Board.acquired 0xE5C10000)) ∧
      ebas ((Board.trap 0x027005E1).after (Board.acquired 0xE5C10000)).fb.cpmem ≠
        ebas (Board.acquired 0xE5C10000).fb.cpmem := by
  obtain ⟨w, res, hacq⟩ := @Board.acquired_runs 0xE5C10000 (by decide +kernel)
  obtain ⟨ctx', htrap⟩ := Code.runs_after (m := Board.trap 0x027005E1)
    (s := Board.acquired 0xE5C10000) (by decide +kernel)
  exact ⟨w, res, ctx', _, hacq, htrap, by decide +kernel⟩

end SeCloak
