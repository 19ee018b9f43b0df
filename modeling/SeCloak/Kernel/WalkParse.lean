import SeCloak.Kernel.Walk

/-!
# What a created device holds

A device is returned only if every part of its node was parsed. One lemma for each parser says what
it has found then.
-/

namespace SeCloak
open Misc Misc.Code

section Parse

variable {m : Machine} {probe : Nat → DtCode (Option Device)} {fuel node : Nat}
  {parent : Option Device} {s s' : Dt} {w : List Event}

/-- One allocation more was counted. -/
def Dt.counted (s : Dt) : Dt := { s with sys := { s.sys with allocs := s.sys.allocs + 1 } }

theorem onSys_malloc_runs {env : Env} {ok : Bool} : Runs (onSys (SeCloak.malloc env)) s w ok s' ↔
    w = [] ∧ ok = env.malloc s.sys.allocs ∧
      s' = s.counted := by
  rw [onSys, runs_zoom, SeCloak.malloc]
  simp only [runs_get_bind, runs_modify_bind, runs_pure]
  constructor
  · rintro ⟨t, ⟨rfl, rfl, rfl⟩, rfl⟩
    exact ⟨rfl, rfl, rfl⟩
  · rintro ⟨rfl, rfl, rfl⟩
    exact ⟨{ s.sys with allocs := s.sys.allocs + 1 }, ⟨rfl, rfl, rfl⟩, rfl⟩

theorem machine_malloc_runs {size : Int} {ok : Bool} : Runs (m.malloc size) s w ok s' ↔
    w = [] ∧ ok = (m.env.malloc s.sys.allocs && m.heap (BitVec.ofInt 32 size).toNat) ∧
      s' = s.counted := by
  rw [Machine.malloc, runs_bind]
  constructor
  · rintro ⟨_, _, _, _, hmalloc, hok, rfl⟩
    obtain ⟨rfl, rfl, rfl⟩ := onSys_malloc_runs.mp hmalloc
    obtain ⟨rfl, rfl, rfl⟩ := runs_pure.mp hok
    exact ⟨rfl, rfl, rfl⟩
  · rintro ⟨rfl, rfl, rfl⟩
    exact ⟨[], _, _, [], onSys_malloc_runs.mpr ⟨rfl, rfl, rfl⟩, runs_pure.mpr ⟨rfl, rfl, rfl⟩, rfl⟩

/-- A device that was created, with the runs of the parsers. -/
structure Parsed (m : Machine) (probe : Nat → DtCode (Option Device)) (fuel node : Nat)
    (parent : Option Device) (s : Dt) (d : Device) (s' : Dt) where
  (ok : Bool)
  (resources : List Resource)
  (irqs : List IrqInfo)
  (csu : List Int)
  (ptrs : List Nat)
  (s₁ s₂ s₃ s₄ : Dt)
  (w₀ w₁ w₂ w₃ w₄ : List Event)
  (allocated : Runs (onSys (SeCloak.malloc m.env)) s w₀ ok s₁)
  (resourcesRun : Runs (dtParseResources m node parent) s₁ w₁ (some resources) s₂)
  (irqsRun : Runs (dtParseInterrupts m probe fuel node parent) s₂ w₂ (some irqs) s₃)
  (csuRun : Runs (dtParseSpCsu m node) s₃ w₃ (some csu) s₄)
  (classesRun : Runs (dtParseSpClass m node) s₄ w₄ (some ptrs) s')
  (device : d = deviceOf (m.deviceInfo node parent resources irqs csu ptrs) parent)

theorem deviceParse_runs {d : Device} (h : Runs (deviceParse m probe fuel node parent) s w d s') :
    Nonempty (Parsed m probe fuel node parent s d s') := by
  obtain ⟨w₀, ok, s₁, _, h₀, h, -⟩ := runs_bind.mp h
  obtain ⟨-, h⟩ := runs_require_bind.mp h
  obtain ⟨w₁, resources, s₂, _, h₁, h, -⟩ := runs_bind.mp h
  obtain ⟨w₂, irqs, s₃, _, h₂, h, -⟩ := runs_bind.mp h
  obtain ⟨w₃, csu, s₄, _, h₃, h, -⟩ := runs_bind.mp h
  obtain ⟨w₄, ptrs, s₅, _, h₄, h, -⟩ := runs_bind.mp h
  cases resources with
  | none => exact absurd h runs_throw
  | some resources =>
    cases irqs with
    | none => exact absurd h runs_throw
    | some irqs =>
      cases csu with
      | none => exact absurd h runs_throw
      | some csu =>
        cases ptrs with
        | none => exact absurd h runs_throw
        | some ptrs =>
          obtain ⟨-, hd, rfl⟩ := runs_pure.mp h
          exact ⟨⟨ok, resources, irqs, csu, ptrs, s₁, s₂, s₃, s₄, w₀, w₁, w₂, w₃, w₄, h₀, h₁, h₂, h₃,
            h₄, hd⟩⟩

theorem deviceCreate_runs {strict : Bool} {d : Device}
    (h : Runs (deviceCreate m probe fuel node parent strict) s w (some d) s') :
    Nonempty (Parsed m probe fuel node parent s d s') := by
  unfold deviceCreate at h
  split at h
  · obtain ⟨-, hnone, -⟩ := runs_pure.mp h
    cases hnone
  · obtain ⟨_, d', s₁, _, hparse, hd, -⟩ := runs_bind.mp h
    obtain ⟨-, hsome, rfl⟩ := runs_pure.mp hd
    obtain rfl := Option.some.inj hsome
    exact deviceParse_runs hparse

@[simp] theorem info_deviceOf (info : DeviceInfo) (parent : Option Device) :
    (deviceOf info parent).info = info := by
  cases parent <;> rfl

theorem Parsed.info {d : Device} (h : Parsed m probe fuel node parent s d s') :
    d.info = m.deviceInfo node parent h.resources h.irqs h.csu h.ptrs := by
  have hinfo := congrArg Device.info h.device
  rwa [info_deviceOf] at hinfo

/-- The resources of a node whose parent is known. -/
theorem dtParseResources_runs {p : Device} {reg : FdtProp} {resources : List Resource}
    (h : Runs (dtParseResources m node (some p)) s w (some resources) s')
    (hreg : m.fdt.getprop node "reg" = some reg) :
    resources = (List.range ((reg.len : Int).tdiv (4 * (m.fdt.addressCells p.info.node.toNat +
        m.fdt.sizeCells p.info.node.toNat))).toNat).map
      (reg.resource m.stale (m.fdt.addressCells p.info.node.toNat)
        (m.fdt.sizeCells p.info.node.toNat)) := by
  rw [dtParseResources, hreg] at h
  obtain ⟨_, ok, s₁, _, -, h, -⟩ := runs_bind.mp h
  cases ok with
  | false => simp at h
  | true =>
    obtain ⟨-, hres, -⟩ := runs_pure.mp h
    exact Option.some.inj hres

end Parse

end SeCloak
