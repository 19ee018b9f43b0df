import SeCloak.Drivers.FbProps

/-!
# The parameters of the display

`fb_acquire` reads the size of the screen from CPMEM, saves the sixteen words of both channels and
then programs fields inside of these words only; `fb_release` writes the saved words back. What is
outside of the two channels is never written.
-/

namespace SeCloak
open Misc

/-- The framebuffer that `fb_acquire` returns for the contents `m` of CPMEM. -/
def fbInfoOf (env : Env) (m : Nat → Word) : FbInfo :=
  { buffer := env.fbVaddr, room := fbmemSize
    width := ipuChParamReadField m ipuChan0 0 125 13 + 1
    height := ipuChParamReadField m ipuChan0 0 138 12 + 1
    stride := (ipuChParamReadField m ipuChan0 0 125 13 + 1) * 3
    prevParamsCh0 := ipuParams m ipuChan0, prevParamsCh1 := ipuParams m ipuChan1 }

/-- The state with other contents of CPMEM, which the non-secure world may write at any time. -/
def Sys.withCpmem (s : Sys) (m : Nat → Word) : Sys := { s with fb := { s.fb with cpmem := m } }

/-- The CPMEM words of the two channels. -/
def FbWord (i : Nat) : Prop :=
  (ipuChan0 * 16 ≤ i ∧ i < ipuChan0 * 16 + 16) ∨ (ipuChan1 * 16 ≤ i ∧ i < ipuChan1 * 16 + 16)

/-! ## Fields -/

theorem writeField_other {m : Nat → Word} {channel w bit size i : Nat} {value : Word}
    (h : i ≠ ipuReg channel w bit) (h' : i ≠ ipuReg channel w bit + 1) :
    ipuChParamWriteField m channel w bit size value i = m i := by
  unfold ipuChParamWriteField
  dsimp only
  split
  · rw [Function.update_of_ne h', Function.update_of_ne h]
  · rw [Function.update_of_ne h]

/-- All fields lie inside of the two channels. -/
theorem fbFields_inside (stride : Word) : ∀ f ∈ fbFields stride,
    ∀ i, ¬ FbWord i → i ≠ ipuReg f.1 f.2.1 f.2.2.1 ∧ i ≠ ipuReg f.1 f.2.1 f.2.2.1 + 1 := by
  intro f hf i hi
  have hreg : FbWord (ipuReg f.1 f.2.1 f.2.2.1) ∧ FbWord (ipuReg f.1 f.2.1 f.2.2.1 + 1) := by
    simp only [fbFields, List.mem_cons, List.not_mem_nil, or_false] at hf
    rcases hf with rfl | rfl | rfl | rfl | rfl | rfl | rfl | rfl | rfl | rfl | rfl | rfl | rfl |
      rfl | rfl <;> simp [FbWord, ipuReg, ipuChan0, ipuChan1]
  constructor
  · rintro rfl
    exact hi hreg.1
  · rintro rfl
    exact hi hreg.2

theorem modifyCpmem_runs {f : (Nat → Word) → Nat → Word} {s s' : Sys} {w : List Event} {u : Unit}
    (h : Code.Runs (modifyCpmem f) s w u s') :
    w = [] ∧ s.fb.cpmemVaddr.isSome = true ∧
      s' = { s with fb := { s.fb with cpmem := f s.fb.cpmem } } := by
  rw [modifyCpmem, Code.runs_get_bind, Code.runs_require_bind, Code.runs_modify] at h
  exact ⟨h.2.1, h.1, h.2.2⟩

theorem writeFields_other {write : Nat × Nat × Nat × Nat × Word → Kernel Unit}
    (hwrite : ∀ f, write f =
      modifyCpmem fun m => ipuChParamWriteField m f.1 f.2.1 f.2.2.1 f.2.2.2.1 f.2.2.2.2)
    {fields : List (Nat × Nat × Nat × Nat × Word)} {s s' : Sys} {w : List Event} {u : Unit} {i : Nat}
    (hi : ∀ f ∈ fields, i ≠ ipuReg f.1 f.2.1 f.2.2.1 ∧ i ≠ ipuReg f.1 f.2.1 f.2.2.1 + 1)
    (h : Code.Runs (Code.forEach write fields) s w u s') : s'.fb.cpmem i = s.fb.cpmem i := by
  induction fields generalizing s w with
  | nil =>
    obtain ⟨-, rfl⟩ := Code.runs_forEach_nil.mp h
    rfl
  | cons f fields ih =>
    obtain ⟨w₁, s₁, w₂, h₁, h₂, rfl⟩ := Code.runs_forEach_cons.mp h
    obtain ⟨hf, hfs⟩ := List.forall_mem_cons.mp hi
    rw [hwrite] at h₁
    obtain ⟨-, -, rfl⟩ := modifyCpmem_runs h₁
    rw [ih hfs h₂]
    exact writeField_other hf.1 hf.2

/-! ## Acquire -/

/-- The stages of `fb_acquire`. -/
theorem fbAcquire_stages {env : Env} {r g b : Byte} {s s' : Sys} {w : List Event}
    {res : Option FbInfo} (h : Code.Runs (fbAcquire env r g b) s w res s') :
    res = some (fbInfoOf env s.fb.cpmem) ∧ s.fb.cpmemVaddr.isSome = true ∧
      (∀ i, ¬ FbWord i → s'.fb.cpmem i = s.fb.cpmem i) ∧
      s'.regions = (if env.malloc s.allocs then ⟨s.fb.basePaddr, 0x400000, .fb⟩ :: s.regions
        else s.regions) ∧
      s'.csu = s.csu.setCsl fbCsl.toNat true := by
  rw [fbAcquire, Code.runs_get_bind] at h
  obtain ⟨w₁, ret, s₁, v₁, h₁, k₁, rfl⟩ := Code.runs_bind.mp h
  obtain ⟨w₂, _, s₂, v₂, h₂, k₂, rfl⟩ := Code.runs_bind.mp k₁
  obtain ⟨w₃, m, s₃, v₃, h₃, k₃, rfl⟩ := Code.runs_bind.mp k₂
  obtain ⟨w₄, _, s₄, v₄, h₄, k₄, rfl⟩ := Code.runs_bind.mp k₃
  obtain ⟨w₅, _, s₅, v₅, h₅, k₅, rfl⟩ := Code.runs_bind.mp k₄
  obtain ⟨rfl, rfl, rfl⟩ := Code.runs_pure.mp k₅
  obtain ⟨-, rfl⟩ := emuAddRegion_runs h₁
  obtain ⟨-, -, rfl, -⟩ := csuSetCsl_runs h₂
  rw [readCpmem, Code.runs_get_bind, Code.runs_require_bind, Code.runs_pure] at h₃
  obtain ⟨hmap, -, rfl, rfl⟩ := h₃
  have hpaint := (fbClear_paintOnly _ _ _ _ h₄).rest
  have hdraw := (Code.within_forEach drawOnly_closed (fun _ _ => modifyCpmem_drawOnly _) h₅).rest
  refine ⟨rfl, hmap, fun i hi => ?_, ?_, ?_⟩
  · rw [writeFields_other (fun _ => rfl) (fun f hf => fbFields_inside _ f hf i hi) h₅, hpaint]
  · rw [hdraw, hpaint]
  · rw [hdraw, hpaint]

/-! ## Release -/

/-- The loop of `fb_release` restores the words that it visits and leaves the others alone. -/
theorem restoreParams_runs {info : FbInfo} {ps : List Nat} (hps : ∀ p ∈ ps, p < 16) {s s' : Sys}
    {w : List Event} {u : Unit} (h : Code.Runs (Code.forEach (fun p => modifyCpmem fun m =>
      Function.update (Function.update m (ipuChan0 * 16 + p) (info.prevParamsCh0 p))
        (ipuChan1 * 16 + p) (info.prevParamsCh1 p)) ps) s w u s') :
    (∀ p ∈ ps, s'.fb.cpmem (ipuChan0 * 16 + p) = info.prevParamsCh0 p ∧
      s'.fb.cpmem (ipuChan1 * 16 + p) = info.prevParamsCh1 p) ∧
    ∀ i, (∀ p ∈ ps, i ≠ ipuChan0 * 16 + p ∧ i ≠ ipuChan1 * 16 + p) →
      s'.fb.cpmem i = s.fb.cpmem i := by
  induction ps generalizing s w with
  | nil =>
    obtain ⟨-, rfl⟩ := Code.runs_forEach_nil.mp h
    exact ⟨by simp, fun _ _ => rfl⟩
  | cons p ps ih =>
    obtain ⟨w₁, s₁, w₂, h₁, h₂, rfl⟩ := Code.runs_forEach_cons.mp h
    obtain ⟨hp, hps'⟩ := List.forall_mem_cons.mp hps
    obtain ⟨-, -, rfl⟩ := modifyCpmem_runs h₁
    obtain ⟨hin, hout⟩ := ih hps' h₂
    have hsep : ∀ q < 16, ipuChan0 * 16 + p ≠ ipuChan1 * 16 + q ∧
        ipuChan1 * 16 + p ≠ ipuChan0 * 16 + q := by
      intro q hq
      unfold ipuChan0 ipuChan1
      omega
    refine ⟨fun q hq => ?_, fun i hi => ?_⟩
    · by_cases hqs : q ∈ ps
      · exact hin q hqs
      · have hqp : q = p := (List.mem_cons.mp hq).resolve_right hqs
        subst hqp
        -- the later words are others
        have hother : ∀ p ∈ ps, (ipuChan0 * 16 + q ≠ ipuChan0 * 16 + p ∧
            ipuChan0 * 16 + q ≠ ipuChan1 * 16 + p) ∧ (ipuChan1 * 16 + q ≠ ipuChan0 * 16 + p ∧
            ipuChan1 * 16 + q ≠ ipuChan1 * 16 + p) := by
          intro p hp'
          have hne : q ≠ p := fun hqp => hqs (hqp ▸ hp')
          have := hsep p (hps' p hp')
          omega
        rw [hout _ fun p hp' => (hother p hp').1, hout _ fun p hp' => (hother p hp').2]
        dsimp only
        rw [Function.update_of_ne (hsep q hp).1, Function.update_self, Function.update_self]
        exact ⟨rfl, rfl⟩
    · obtain ⟨hi₁, hi₂⟩ := List.forall_mem_cons.mp hi
      rw [hout i hi₂]
      dsimp only
      rw [Function.update_of_ne hi₁.2, Function.update_of_ne hi₁.1]

/-- A release gives the display the words that were saved. -/
theorem fbRelease_stages {env : Env} {m : Nat → Word} {s s' : Sys} {w : List Event} {u : Unit}
    (hbuf : env.fbVaddr.isSome = true) (hm : ∀ i, ¬ FbWord i → s.fb.cpmem i = m i)
    (h : Code.Runs (fbRelease env (fbInfoOf env m)) s w u s') :
    s'.fb.cpmem = m ∧ s'.csu = s.csu.setCsl fbCsl.toNat false ∧
      s'.regions = s.regions.erase ⟨s.fb.basePaddr, 0x400000, .fb⟩ := by
  rcases Code.runs_runIf.mp h with ⟨-, k₀⟩ | ⟨hn, -, -⟩
  swap
  · exact absurd hbuf hn
  obtain ⟨w₁, _, s₁, v₁, h₁, k₁, rfl⟩ := Code.runs_bind.mp k₀
  obtain ⟨w₂, _, s₂, v₂, h₂, k₂, rfl⟩ := Code.runs_bind.mp k₁
  rw [Code.runs_get_bind] at k₂
  obtain ⟨-, -, rfl, -⟩ := csuSetCsl_runs h₂
  obtain ⟨-, rfl⟩ := emuRemoveRegion_runs k₂
  have hdraw := (Code.within_forEach drawOnly_closed (fun _ _ => modifyCpmem_drawOnly _) h₁).rest
  obtain ⟨hin, hout⟩ := restoreParams_runs (fun p hp => List.mem_range.mp hp) h₁
  refine ⟨?_, ?_, ?_⟩
  · funext i
    change s₁.fb.cpmem i = m i
    by_cases hi : FbWord i
    · rcases hi with ⟨hlo, hhi⟩ | ⟨hlo, hhi⟩
      · obtain ⟨p, rfl⟩ := Nat.exists_eq_add_of_le hlo
        exact (hin p (List.mem_range.mpr (by omega))).1
      · obtain ⟨p, rfl⟩ := Nat.exists_eq_add_of_le hlo
        exact (hin p (List.mem_range.mpr (by omega))).2
    · rw [hout i, hm i hi]
      intro p hp
      have hlt := List.mem_range.mp hp
      unfold FbWord at hi
      omega
  · change s₁.csu.setCsl _ _ = _
    rw [hdraw]
  · change s₁.regions.erase ⟨s₁.fb.basePaddr, _, _⟩ = _
    rw [hdraw]

end SeCloak
