import SeCloak.Drivers.Fb
import SeCloak.Drivers.DtHolders

/-!
# What the framebuffer driver changes

Drawing stays in the framebuffer (`PaintOnly`), and what is done to the display besides in CPMEM
(`DrawOnly`). `fb_acquire` adds one region and takes the CSL of the display, and `fb_release` gives
both back; a framebuffer that was acquired always has a buffer, so that a release after it is never
skipped.
-/

namespace SeCloak
open Misc

/-- Only the framebuffer and CPMEM change, and no step of the run changes what is protected. -/
structure DrawOnly (s : Sys) (w : List Event) (s' : Sys) : Prop where
  rest : s' = { s with fb := { s.fb with cpmem := s'.fb.cpmem, mem := s'.fb.mem } }
  quiet : ∀ t, .prot t ∉ w

theorem drawOnly_closed : Code.Closed DrawOnly where
  nil s := ⟨rfl, by simp⟩
  append h h' := by
    refine ⟨?_, fun t ht => ?_⟩
    · rw [h'.rest, h.rest]
    · rcases List.mem_append.mp ht with ht | ht
      · exact h.quiet t ht
      · exact h'.quiet t ht

theorem modifyCpmem_drawOnly (f : (Nat → Word) → Nat → Word) :
    Code.Within (modifyCpmem f) DrawOnly := by
  intro s w u s' h
  rw [modifyCpmem, Code.runs_get_bind, Code.runs_require_bind, Code.runs_modify] at h
  obtain ⟨-, rfl, rfl⟩ := h
  exact ⟨rfl, by simp⟩

/-- Drawing: only the bytes of the framebuffer change. -/
structure PaintOnly (s : Sys) (w : List Event) (s' : Sys) : Prop where
  rest : s' = { s with fb := { s.fb with mem := s'.fb.mem } }
  quiet : ∀ t, .prot t ∉ w

theorem paintOnly_closed : Code.Closed PaintOnly where
  nil s := ⟨rfl, by simp⟩
  append h h' := by
    refine ⟨?_, fun t ht => ?_⟩
    · rw [h'.rest, h.rest]
    · rcases List.mem_append.mp ht with ht | ht
      · exact h.quiet t ht
      · exact h'.quiet t ht

theorem PaintOnly.drawOnly {s s' : Sys} {w : List Event} (h : PaintOnly s w s') :
    DrawOnly s w s' := by
  refine ⟨?_, h.quiet⟩
  rw [h.rest]

theorem fbStore_runs {info : FbInfo} {offset : Nat} {b : Byte} {s s' : Sys} {w : List Event}
    {u : Unit} (h : Code.Runs (fbStore info offset b) s w u s') :
    info.buffer.isSome = true ∧ offset < info.room ∧ w = [.pixel (fbmemStart.toNat + offset)] ∧
      s' = { s with fb := { s.fb with mem := Function.update s.fb.mem offset b } } := by
  rw [fbStore, Code.runs_require_bind, Code.runs_emit_bind] at h
  obtain ⟨hbuf, w', h, rfl⟩ := h
  rw [Code.runs_require_bind, Code.runs_modify] at h
  obtain ⟨hlt, rfl, rfl⟩ := h
  exact ⟨hbuf, hlt, rfl, rfl⟩

theorem fbStore_paintOnly (info : FbInfo) (offset : Nat) (b : Byte) :
    Code.Within (fbStore info offset b) PaintOnly := by
  intro s w u s' h
  obtain ⟨-, -, rfl, rfl⟩ := fbStore_runs h
  exact ⟨rfl, by simp⟩

theorem fbClear_paintOnly (info : FbInfo) (r g b : Byte) :
    Code.Within (fbClear info r g b) PaintOnly := by
  refine Code.within_forEach paintOnly_closed fun y _ => ?_
  refine Code.within_forEach paintOnly_closed fun x _ => ?_
  refine Code.within_bind paintOnly_closed (fbStore_paintOnly _ _ _) fun _ => ?_
  exact Code.within_bind paintOnly_closed (fbStore_paintOnly _ _ _) fun _ => fbStore_paintOnly _ _ _

theorem fbBlit_paintOnly (env : Env) (info : FbInfo) (x y : Word) (image : Image) :
    Code.Within (fbBlit env info x y image) PaintOnly := by
  refine Code.within_runIf paintOnly_closed ?_
  refine Code.within_forEach paintOnly_closed fun n _ => ?_
  exact Code.within_forEach paintOnly_closed fun k _ => fbStore_paintOnly _ _ _

theorem fbBlitImage_paintOnly (env : Env) (info : FbInfo) (x y : Word) (image : Image) :
    Code.Within (fbBlitImage env info x y image) PaintOnly := by
  refine Code.within_bind paintOnly_closed ?_ fun _ => fbBlit_paintOnly env info x y image
  exact Code.within_emit fun s => ⟨rfl, by simp⟩

theorem fbBlitAll_paintOnly (env : Env) (info : FbInfo) (blits : List Blit) :
    Code.Within (fbBlitAll env info blits) PaintOnly :=
  Code.within_forEach paintOnly_closed fun b _ => fbBlitImage_paintOnly env info b.x b.y b.image

/-! ## Size of the screen -/

theorem readWidth_lt (m : Nat → Word) :
    (ipuChParamReadField m ipuChan0 0 125 13).toNat < 2 ^ 13 := by
  have hlo : (0x1FFF#32 &&& m (ipuReg ipuChan0 0 125) >>> 29).toNat < 2 ^ 13 := by
    rw [BitVec.toNat_and]
    exact Nat.lt_of_le_of_lt Nat.and_le_left (by decide)
  have hhi : ((m (ipuReg ipuChan0 0 125 + 1) &&& 0x3FF#32) <<< 3).toNat < 2 ^ 13 := by
    have hle : (m (ipuReg ipuChan0 0 125 + 1)).toNat &&& 0x3FF ≤ 0x3FF := Nat.and_le_right
    rw [BitVec.toNat_shiftLeft, BitVec.toNat_and, Nat.shiftLeft_eq]
    refine Nat.lt_of_le_of_lt (Nat.mod_le _ _) ?_
    change ((m (ipuReg ipuChan0 0 125 + 1)).toNat &&& 0x3FF) * 8 < 8192
    omega
  change (_ ||| _ : Word).toNat < 2 ^ 13
  rw [BitVec.toNat_or]
  exact Nat.or_lt_two_pow hlo hhi

theorem readHeight_lt (m : Nat → Word) :
    (ipuChParamReadField m ipuChan0 0 138 12).toNat < 2 ^ 12 := by
  have hle : (ipuChParamReadField m ipuChan0 0 138 12).toNat ≤ 0xFFF := by
    change (0xFFF#32 &&& m (ipuReg ipuChan0 0 138) >>> 10).toNat ≤ 0xFFF
    rw [BitVec.toNat_and]
    exact Nat.and_le_left
  omega

theorem readWidth_pos (m : Nat → Word) :
    0 < (ipuChParamReadField m ipuChan0 0 125 13 + 1).toNat := by
  have hread := readWidth_lt m
  rw [BitVec.toNat_add, show (1 : Word).toNat = 1 from rfl]
  omega

theorem readHeight_pos (m : Nat → Word) :
    0 < (ipuChParamReadField m ipuChan0 0 138 12 + 1).toNat := by
  have hread := readHeight_lt m
  rw [BitVec.toNat_add, show (1 : Word).toNat = 1 from rfl]
  omega

/-- Clearing a screen of positive size writes at least one byte. -/
theorem fbClear_buffer {info : FbInfo} {r g b : Byte} {s s' : Sys} {w : List Event} {u : Unit}
    (hw : 0 < info.width.toNat) (hh : 0 < info.height.toNat)
    (h : Code.Runs (fbClear info r g b) s w u s') : info.buffer.isSome = true := by
  obtain ⟨m, hm⟩ := Nat.exists_eq_succ_of_ne_zero (Nat.ne_of_gt hh)
  obtain ⟨n, hn⟩ := Nat.exists_eq_succ_of_ne_zero (Nat.ne_of_gt hw)
  rw [fbClear, hm, List.range_succ_eq_map] at h
  obtain ⟨w₁, s₁, w₂, h₁, -, rfl⟩ := Code.runs_forEach_cons.mp h
  rw [hn, List.range_succ_eq_map] at h₁
  obtain ⟨w₃, s₃, w₄, h₃, -, rfl⟩ := Code.runs_forEach_cons.mp h₁
  obtain ⟨w₅, _, s₅, w₆, h₅, -, rfl⟩ := Code.runs_bind.mp h₃
  exact (fbStore_runs h₅).1

/-! ## Acquire and release -/

/-- `fb_acquire`: a region, the CSL of the display, then drawing and CPMEM only. -/
theorem fbAcquire_runs {env : Env} {r g b : Byte} {s s' : Sys} {w : List Event}
    {res : Option FbInfo} (h : Code.Runs (fbAcquire env r g b) s w res s') :
    ∃ info s₁ s₂ w', res = some info ∧ info.buffer.isSome = true ∧
      (∃ ret, Code.Runs (emuAddRegion env s.fb.basePaddr 0x400000 .fb) s [.prot s₁] ret s₁) ∧
      Code.Runs (csuSetCsl env fbCsl true) s₁ [.prot s₂] () s₂ ∧ DrawOnly s₂ w' s' ∧
      w = .prot s₁ :: .prot s₂ :: w' := by
  rw [fbAcquire, Code.runs_get_bind] at h
  obtain ⟨w₁, ret, s₁, v₁, h₁, k₁, rfl⟩ := Code.runs_bind.mp h
  obtain ⟨w₂, _, s₂, v₂, h₂, k₂, rfl⟩ := Code.runs_bind.mp k₁
  obtain ⟨w₃, m, s₃, v₃, h₃, k₃, rfl⟩ := Code.runs_bind.mp k₂
  obtain ⟨w₄, _, s₄, v₄, h₄, k₄, rfl⟩ := Code.runs_bind.mp k₃
  obtain ⟨w₅, _, s₅, v₅, h₅, k₅, rfl⟩ := Code.runs_bind.mp k₄
  obtain ⟨rfl, rfl, rfl⟩ := Code.runs_pure.mp k₅
  obtain ⟨rfl, -⟩ := emuAddRegion_runs h₁
  obtain ⟨-, -, -, rfl⟩ := csuSetCsl_runs h₂
  rw [readCpmem, Code.runs_get_bind, Code.runs_require_bind, Code.runs_pure] at h₃
  obtain ⟨-, rfl, -, rfl⟩ := h₃
  have hbuf := fbClear_buffer (readWidth_pos m) (readHeight_pos m) h₄
  have hdraw₅ := Code.within_forEach drawOnly_closed (fun _ _ => modifyCpmem_drawOnly _) h₅
  refine ⟨_, s₁, s₃, w₄ ++ w₅, rfl, hbuf, ⟨ret, h₁⟩, h₂, ?_, by simp⟩
  exact drawOnly_closed.append (fbClear_paintOnly _ _ _ _ h₄).drawOnly hdraw₅

/-- `fb_release` of an acquired framebuffer: CPMEM, then the CSL of the display and the
region. -/
theorem fbRelease_runs {env : Env} {info : FbInfo} {s s' : Sys} {w : List Event} {u : Unit}
    (hbuf : info.buffer.isSome = true) (h : Code.Runs (fbRelease env info) s w u s') :
    ∃ s₁ s₂ w', DrawOnly s w' s₁ ∧ Code.Runs (csuSetCsl env fbCsl false) s₁ [.prot s₂] () s₂ ∧
      Code.Runs (emuRemoveRegion s₂.fb.basePaddr 0x400000 .fb) s₂ [.prot s'] () s' ∧
      w = w' ++ [.prot s₂, .prot s'] := by
  rcases Code.runs_runIf.mp h with ⟨-, k₀⟩ | ⟨hn, -, -⟩
  · obtain ⟨w₁, _, s₁, v₁, h₁, k₁, rfl⟩ := Code.runs_bind.mp k₀
    obtain ⟨w₂, _, s₂, v₂, h₂, k₂, rfl⟩ := Code.runs_bind.mp k₁
    rw [Code.runs_get_bind] at k₂
    obtain ⟨-, -, -, rfl⟩ := csuSetCsl_runs h₂
    obtain ⟨rfl, -⟩ := emuRemoveRegion_runs k₂
    have hdraw := Code.within_forEach drawOnly_closed (fun _ _ => modifyCpmem_drawOnly _) h₁
    exact ⟨s₁, s₂, w₁, hdraw, h₂, k₂, by simp⟩
  · exact absurd hbuf hn

/-- What the framebuffer driver leaves alone. -/
structure FbOnly (s s' : Sys) : Prop where
  rest : s' = { s with csu := s'.csu, regions := s'.regions, allocs := s'.allocs
                       fb := { s.fb with cpmem := s'.fb.cpmem, mem := s'.fb.mem } }
  allocs : s.allocs ≤ s'.allocs
  spare : s'.csu.spare = s.csu.spare

theorem FbOnly.trans {s s' s'' : Sys} (h : FbOnly s s') (h' : FbOnly s' s'') : FbOnly s s'' :=
  ⟨by rw [h'.rest, h.rest], Nat.le_trans h.allocs h'.allocs, h'.spare.trans h.spare⟩

theorem FbOnly.refl (s : Sys) : FbOnly s s := ⟨rfl, Nat.le_refl _, rfl⟩

theorem DrawOnly.fbOnly {s s' : Sys} {w : List Event} (h : DrawOnly s w s') : FbOnly s s' := by
  have hal : s'.allocs = s.allocs := by rw [h.rest]
  have hcsu : s'.csu = s.csu := by rw [h.rest]
  refine ⟨?_, Nat.le_of_eq hal.symm, by rw [hcsu]⟩
  rw [h.rest]

/-! ## Accounts -/

theorem Accounts.draw {env : Env} {clean : Prop} {X : List Int} {s s' : Sys} {w : List Event}
    {L : List Device} (h : Accounts env clean X s L) (hd : DrawOnly s w s') :
    Accounts env clean X s' L :=
  h.congr (by rw [hd.rest]) (by rw [hd.rest]) (by rw [hd.rest]) hd.fbOnly.allocs

theorem DrawOnly.covered {env : Env} {L : List Device} {flag : Device → Bool} {s s' : Sys}
    {w : List Event} (h : DrawOnly s w s') : Covered env L flag w :=
  fun t ht => absurd ht (h.quiet t)

/-- The framebuffer becomes a holder of its CSL; the devices keep theirs all the time. -/
theorem fbAcquire_accounts {env : Env} {clean : Prop} {X : List Int} {r g b : Byte} {s s' : Sys}
    {w : List Event} {res : Option FbInfo} {L : List Device}
    (h : Code.Runs (fbAcquire env r g b) s w res s') (ha : Accounts env clean X s L) :
    Accounts env clean (fbCsl :: X) s' L ∧ Covered env L s.enabled w := by
  obtain ⟨info, s₁, s₂, w', -, -, ⟨ret, h₁⟩, h₂, hdraw, rfl⟩ := fbAcquire_runs h
  have hl₁ : Ledger env s₁ L X [] := emuAddRegion_ledger h₁ ha.ledger
  obtain ⟨hl₂, hok₂⟩ := csuSetCsl_protect h₂ hl₁
  obtain ⟨-, hen₁, -⟩ := emuAddRegion_policyOnly h₁
  obtain ⟨-, hen₂, -⟩ := csuSetCsl_policyOnly h₂
  have hcsu₁ : s₁.csu = s.csu := by
    rw [(emuAddRegion_runs h₁).2]
  have ha₂ : Accounts env clean (fbCsl :: X) s₂ L :=
    { nodup := ha.nodup
      mem := fun d => by rw [ha.mem, hen₂, hen₁]
      ledger := hl₂
      range := ha.range
      ok := fun hc => hok₂ (hcsu₁ ▸ ha.ok hc) }
  refine ⟨ha₂.draw hdraw, ?_⟩
  have hcov₁ := Covered.single hl₁ hen₁
  have hcov₂ := Covered.single hl₂ (hen₂.trans hen₁)
  exact hcov₁.append (hcov₂.append hdraw.covered)

theorem fbRelease_accounts {env : Env} {clean : Prop} {X : List Int} {info : FbInfo}
    {s s' : Sys} {w : List Event} {u : Unit} {L : List Device} (hbuf : info.buffer.isSome = true)
    (h : Code.Runs (fbRelease env info) s w u s') (ha : Accounts env clean (fbCsl :: X) s L) :
    Accounts env clean X s' L ∧ Covered env L s.enabled w := by
  obtain ⟨s₁, s₂, w', hdraw, h₁, h₂, rfl⟩ := fbRelease_runs hbuf h
  have ha₁ := ha.draw hdraw
  obtain ⟨hl₂, hok₂⟩ := csuSetCsl_release h₁ ha₁.ledger
  have hl₃ := emuRemoveRegion_other (by decide) h₂ hl₂
  have hen₁ : s₁.enabled = s.enabled := by rw [hdraw.rest]
  obtain ⟨-, hen₂, -⟩ := csuSetCsl_policyOnly h₁
  obtain ⟨-, hen₃, -⟩ := emuRemoveRegion_policyOnly h₂
  have hcsu₃ : s'.csu = s₂.csu := by
    rw [(emuRemoveRegion_runs h₂).2]
  refine ⟨?_, ?_⟩
  · exact
      { nodup := ha.nodup
        mem := fun d => by rw [ha.mem, hen₃, hen₂, hen₁]
        ledger := hl₃
        range := ha.range
        ok := fun hc => hcsu₃ ▸ hok₂ (ha₁.ok hc) }
  · have hcov₂ := Covered.single hl₂ (hen₂.trans hen₁)
    have hcov₃ := Covered.single hl₃ (hen₃.trans (hen₂.trans hen₁))
    exact hdraw.covered.append (hcov₂.append hcov₃)

theorem fbAcquire_fbOnly {env : Env} {r g b : Byte} :
    Code.Within (fbAcquire env r g b) (fun s _ s' => FbOnly s s') := by
  intro s w res s' h
  obtain ⟨info, s₁, s₂, w', -, -, ⟨ret, h₁⟩, h₂, hdraw, -⟩ := fbAcquire_runs h
  obtain ⟨-, rfl⟩ := emuAddRegion_runs h₁
  obtain ⟨-, -, rfl, -⟩ := csuSetCsl_runs h₂
  refine FbOnly.trans ?_ hdraw.fbOnly
  exact ⟨rfl, Nat.le_succ _, setCsl_spare _ _ _⟩

theorem fbRelease_fbOnly {env : Env} {info : FbInfo} :
    Code.Within (fbRelease env info) (fun s _ s' => FbOnly s s') := by
  intro s w u s' h
  by_cases hbuf : info.buffer.isSome = true
  · obtain ⟨s₁, s₂, w', hdraw, h₁, h₂, -⟩ := fbRelease_runs hbuf h
    refine hdraw.fbOnly.trans ?_
    obtain ⟨-, -, rfl, -⟩ := csuSetCsl_runs h₁
    obtain ⟨-, rfl⟩ := emuRemoveRegion_runs h₂
    exact ⟨rfl, Nat.le_refl _, setCsl_spare _ _ _⟩
  · rcases Code.runs_runIf.mp h with ⟨hn, -⟩ | ⟨-, rfl, rfl⟩
    · exact absurd hn hbuf
    · exact FbOnly.refl _

end SeCloak
