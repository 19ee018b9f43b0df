import SeCloak.State

/-!
# The region list (`emulation.c:24-49`)
-/

namespace SeCloak
open Misc

/-- `emu_add_region` (`emulation.c:26-38`). -/
def emuAddRegion (env : Env) (base size : Word) (check : EmuCheck) : Kernel Int := do
  let ok ← malloc env
  Code.runIf (ok = true)
    (Code.modify fun s => { s with regions := ⟨base, size, check⟩ :: s.regions })
  logProt
  pure (if ok then 0 else enomem)

/-- `emu_remove_region` (`emulation.c:40-49`): the first region that matches is removed. -/
def emuRemoveRegion (base size : Word) (check : EmuCheck) : Kernel Unit := do
  Code.modify fun s => { s with regions := s.regions.erase ⟨base, size, check⟩ }
  logProt

theorem emuAddRegion_runs {env : Env} {base size : Word} {check : EmuCheck} {s s' : Sys}
    {w : List Event} {r : Int} (h : Code.Runs (emuAddRegion env base size check) s w r s') :
    w = [.prot s'] ∧ s' = { s with
      allocs := s.allocs + 1
      regions := if env.malloc s.allocs then ⟨base, size, check⟩ :: s.regions else s.regions } := by
  rw [emuAddRegion, runs_malloc_bind, Code.runs_bind] at h
  obtain ⟨_, _, _, _, h₁, h₂, rfl⟩ := h
  rw [Code.runs_bind] at h₂
  obtain ⟨_, _, _, _, h₂, h₃, rfl⟩ := h₂
  obtain ⟨rfl, rfl⟩ := runs_logProt.mp h₂
  obtain ⟨rfl, -, rfl⟩ := Code.runs_pure.mp h₃
  rcases Code.runs_runIf.mp h₁ with ⟨hok, h₁⟩ | ⟨hok, rfl, rfl⟩
  · obtain ⟨rfl, rfl⟩ := Code.runs_modify.mp h₁
    exact ⟨rfl, by simp [hok]⟩
  · exact ⟨rfl, by simp [hok]⟩

theorem emuRemoveRegion_runs {base size : Word} {check : EmuCheck} {s s' : Sys}
    {w : List Event} {u : Unit} (h : Code.Runs (emuRemoveRegion base size check) s w u s') :
    w = [.prot s'] ∧ s' = { s with regions := s.regions.erase ⟨base, size, check⟩ } := by
  rw [emuRemoveRegion, Code.runs_modify_bind, runs_logProt] at h
  obtain ⟨rfl, rfl⟩ := h
  exact ⟨rfl, rfl⟩

theorem emuAddRegion_total (env : Env) (base size : Word) (check : EmuCheck) :
    Code.Total (emuAddRegion env base size check) := by
  intro s w e h
  rw [emuAddRegion, stops_malloc_bind] at h
  simp [Code.stops_runIf, Code.stops_bind] at h

theorem emuRemoveRegion_total (base size : Word) (check : EmuCheck) :
    Code.Total (emuRemoveRegion base size check) := by
  intro s w e h
  simp [emuRemoveRegion] at h

end SeCloak
