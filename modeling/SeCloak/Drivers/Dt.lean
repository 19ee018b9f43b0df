import SeCloak.Drivers.Csu
import SeCloak.Emulation.Regions
import SeCloak.Kernel.Interrupt
import SeCloak.Misc.Sweep

/-!
# Devices and classes (`dt.c`)

The device table with its iterator, and the functions that enable and disable a device and a
class. A device is disabled together with its ancestors up to the first one that can be
protected: `Device.chain`. The flags after `dt_enable_class` are those of a `Misc.sweep` over
these chains (`dtEnableClass_enabled`).
-/

namespace SeCloak
open Misc

/-! ## The device table -/

/-- `DEVICE_TABLE_SIZE` (`dt.c:18-19`). -/
def deviceTableSize : Nat := 128

/-- `struct device_table` (`dt.c:25-27`): the entries of each bucket, head first. -/
structure DeviceTable where
  bucket : Nat → List Device

namespace DeviceTable

/-- The loop of `device_next` (`dt.c:50-52`): the next bucket that is not empty. A pointer into
a bucket is the list that starts at its entry, and NULL is the empty list. -/
def skipEmpty (t : DeviceTable) : Nat → Nat → List Device → Nat × List Device
  | 0, b, dev => (b, dev)
  | fuel + 1, b, dev =>
    if dev = [] then
      if b + 1 < deviceTableSize then t.skipEmpty fuel (b + 1) (t.bucket (b + 1)) else (b + 1, [])
    else (b, dev)

/-- `device_next` (`dt.c:43-55`). -/
def deviceNext (t : DeviceTable) (b : Nat) (dev : List Device) : Nat × List Device :=
  let dev := if dev = [] ∧ b = 0 then t.bucket 0 else dev.tail
  t.skipEmpty deviceTableSize b dev

/-- `device_for_each` (`dt.c:57-58`), at most `fuel` devices of it. -/
def forEachFrom (t : DeviceTable) : Nat → Nat → List Device → List Device
  | 0, _, _ => []
  | fuel + 1, b, dev =>
    match t.deviceNext b dev with
    | (_, []) => []
    | (b', d :: rest) => d :: t.forEachFrom fuel b' (d :: rest)

/-- The devices in the buckets from `b` on. -/
def bucketsFrom (t : DeviceTable) (b : Nat) : List Device :=
  (List.range' b (deviceTableSize - b)).flatMap t.bucket

/-- The devices in the order in which `device_for_each` visits them; the bodies of these loops
do not change the table. -/
def devices (t : DeviceTable) : List Device :=
  t.forEachFrom ((t.bucketsFrom 0).length + 1) 0 []

theorem bucketsFrom_step (t : DeviceTable) {b : Nat} (h : b < deviceTableSize) :
    t.bucketsFrom b = t.bucket b ++ t.bucketsFrom (b + 1) := by
  unfold bucketsFrom
  rw [show deviceTableSize - b = deviceTableSize - (b + 1) + 1 by omega, List.range'_succ,
    List.flatMap_cons]

theorem bucketsFrom_end (t : DeviceTable) {b : Nat} (h : deviceTableSize ≤ b) :
    t.bucketsFrom b = [] := by
  unfold bucketsFrom
  rw [Nat.sub_eq_zero_of_le h]
  rfl

/-- Skipping empty buckets loses no device, and ends at NULL only when none is left. -/
theorem skipEmpty_spec (t : DeviceTable) : ∀ (fuel b : Nat) (dev : List Device),
    deviceTableSize ≤ fuel + b →
      (t.skipEmpty fuel b dev).2 ++ t.bucketsFrom ((t.skipEmpty fuel b dev).1 + 1) =
        dev ++ t.bucketsFrom (b + 1) ∧
      ((t.skipEmpty fuel b dev).2 = [] → dev ++ t.bucketsFrom (b + 1) = []) := by
  intro fuel
  induction fuel with
  | zero =>
    intro b dev hb
    refine ⟨rfl, fun h => ?_⟩
    have hdev : dev = [] := h
    rw [hdev, t.bucketsFrom_end (by omega)]
    rfl
  | succ fuel ih =>
    intro b dev hb
    simp only [skipEmpty]
    by_cases hdev : dev = []
    · subst hdev
      rw [if_pos rfl]
      by_cases hlt : b + 1 < deviceTableSize
      · rw [if_pos hlt, List.nil_append, t.bucketsFrom_step hlt]
        exact ih (b + 1) (t.bucket (b + 1)) (by omega)
      · rw [if_neg hlt, t.bucketsFrom_end (b := b + 1) (by omega),
          t.bucketsFrom_end (b := b + 1 + 1) (by omega)]
        exact ⟨rfl, fun _ => rfl⟩
    · rw [if_neg hdev]
      exact ⟨rfl, fun h => absurd h hdev⟩

/-- When the iterator is about to look at `dev` in bucket `b`, the loop visits what is left of
`dev` and the later buckets, each device once. -/
theorem forEachFrom_eq (t : DeviceTable) : ∀ (fuel b : Nat) (pos dev : List Device),
    t.deviceNext b pos = t.skipEmpty deviceTableSize b dev →
    (dev ++ t.bucketsFrom (b + 1)).length < fuel →
      t.forEachFrom fuel b pos = dev ++ t.bucketsFrom (b + 1) := by
  intro fuel
  induction fuel with
  | zero => intro b pos dev _ h; exact absurd h (by omega)
  | succ fuel ih =>
    intro b pos dev hnext hlen
    have hspec := t.skipEmpty_spec deviceTableSize b dev (by omega)
    rw [forEachFrom, hnext]
    generalize t.skipEmpty deviceTableSize b dev = next at hspec
    obtain ⟨b', dev'⟩ := next
    obtain ⟨heq, hnil⟩ := hspec
    simp only at heq hnil
    cases dev' with
    | nil => exact (hnil rfl).symm
    | cons e rest =>
      rw [← heq] at hlen ⊢
      have hnext' : t.deviceNext b' (e :: rest) = t.skipEmpty deviceTableSize b' rest := by
        simp [deviceNext]
      simp only [List.cons_append, List.length_cons] at hlen ⊢
      rw [ih b' (e :: rest) rest hnext' (by omega)]

/-- `device_for_each` visits exactly the entries of the buckets, in bucket order. -/
theorem devices_eq (t : DeviceTable) : t.devices = t.bucketsFrom 0 := by
  have hnext : t.deviceNext 0 [] = t.skipEmpty deviceTableSize 0 (t.bucket 0) := by
    simp [deviceNext]
  have hstep := t.bucketsFrom_step (b := 0) (by decide)
  rw [devices, t.forEachFrom_eq _ 0 [] (t.bucket 0) hnext (by rw [← hstep]; omega), ← hstep]

end DeviceTable

/-! ## Enabling and disabling -/

/-- One interrupt of a device (`dt.c:392-399`). -/
def dtEnableIrq (env : Env) (enable : Bool) (info : IrqInfo) : Kernel Unit :=
  if enable then do
    let _ ← irqUnsecure info.desc
    let _ ← irqEnable env info.desc
    pure ()
  else do
    let _ ← irqDisable info.desc
    let _ ← irqSecure env info.desc
    pure ()

/-- The interrupts of a device (`dt.c:391-400`). -/
def dtEnableIrqs (env : Env) (dev : Device) (enable : Bool) : Kernel Unit :=
  Code.forEach (dtEnableIrq env enable) dev.info.irqs

/-- The CSLs and the emulation policy of a device that can be protected (`dt.c:402-421`). -/
def dtProtect (env : Env) (dev : Device) (enable : Bool) : Kernel Unit :=
  if enable then do
    Code.forEach (fun c => csuSetCsl env c false) dev.info.csu
    Code.forEach (fun r => emuRemoveRegion r.address.c0 r.size.c0 .denyAll) dev.info.resources
  else do
    Code.forEach (fun r => do
      let _ ← emuAddRegion env r.address.c0 r.size.c0 .denyAll
      pure ()) dev.info.resources
    Code.forEach (fun c => csuSetCsl env c true) dev.info.csu

/-- `dt_enable_device` (`dt.c:384-427`). -/
def dtEnableDevice (env : Env) (dev : Device) (enable : Bool) : Kernel Bool := do
  let s ← Code.get
  Code.runIf (s.enabled dev ≠ enable) do
    dtEnableIrqs env dev enable
    Code.runIf (dev.canProtect = true) (dtProtect env dev enable)
    Code.modify fun s => { s with enabled := Function.update s.enabled dev enable }
  pure dev.canProtect

/-- The loop of `dt_enable_class` over a device and its parents (`dt.c:449-456`). -/
def dtEnableParents (env : Env) (enable : Bool) : Device → Kernel Unit
  | .root i => do
    let _ ← dtEnableDevice env (.root i) enable
    pure ()
  | .child i p => do
    let protected_ ← dtEnableDevice env (.child i p) enable
    if protected_ then pure () else dtEnableParents env enable p

/-- `device_has_class` (`dt.c:430-438`). -/
def deviceHasClass (dev : Device) (name : CString) : Bool := decide (name ∈ dev.info.classes)

/-- `dt_enable_class` (`dt.c:440-459`). -/
def dtEnableClass (env : Env) (t : DeviceTable) (name : CString) (enable : Bool) : Kernel Unit :=
  Code.forEach (fun dev =>
    Code.runIf (deviceHasClass dev name = true) do
      let s ← Code.get
      Code.runIf (s.enabled dev ≠ enable) (dtEnableParents env enable dev)) t.devices

/-- `dt_is_class_enabled` (`dt.c:461-470`). -/
def dtIsClassEnabled (t : DeviceTable) (name : CString) (s : Sys) : Bool :=
  match t.devices.find? (deviceHasClass · name) with
  | some dev => s.enabled dev
  | none => false

/-! ## Chains -/

/-- The devices that `dt_enable_class` switches together with `d`: `d` and its ancestors, up to
and including the first that can be protected, or up to the root. -/
def Device.chain : Device → List Device
  | .root i => [.root i]
  | .child i p => if (Device.child i p).canProtect then [.child i p] else .child i p :: p.chain

theorem self_mem_chain (d : Device) : d ∈ d.chain := by
  cases d with
  | root i => simp [Device.chain]
  | child i p =>
    rw [Device.chain]
    split <;> simp

theorem chain_closed : ChainClosed Device.chain where
  self := self_mem_chain
  trans := by
    intro d
    induction d with
    | root i =>
      intro x hx y hy
      have hxr : x = .root i := by simpa [Device.chain] using hx
      rwa [hxr] at hy
    | child i p ih =>
      intro x hx y hy
      by_cases hp : (Device.child i p).canProtect = true
      · rw [Device.chain, if_pos hp] at hx ⊢
        have hxc : x = .child i p := by simpa using hx
        rwa [hxc, Device.chain, if_pos hp] at hy
      · rw [Device.chain, if_neg hp] at hx ⊢
        rcases List.mem_cons.mp hx with rfl | hx
        · rwa [Device.chain, if_neg hp] at hy
        · exact List.mem_cons_of_mem _ (ih hx y hy)

/-- A device with all of its ancestors. -/
def Device.ancestors : Device → List Device
  | .root i => [.root i]
  | .child i p => .child i p :: p.ancestors

/-- The first of them that can be protected. -/
def Device.guard (d : Device) : Option Device := d.ancestors.find? (·.canProtect)

theorem guard_canProtect {d p : Device} (h : d.guard = some p) : p.canProtect = true :=
  List.find?_some h

/-- The chain of a device reaches the first ancestor that can be protected. -/
theorem guard_mem_chain {d p : Device} (h : d.guard = some p) : p ∈ d.chain := by
  induction d with
  | root i =>
    have hmem := List.mem_of_find?_eq_some h
    exact hmem
  | child i q ih =>
    rw [Device.guard, Device.ancestors, List.find?_cons] at h
    rw [Device.chain]
    by_cases hp : (Device.child i q).canProtect = true
    · rw [hp] at h
      rw [if_pos hp, Option.some.inj h]
      exact List.mem_singleton_self p
    · rw [if_neg hp]
      simp only [hp] at h
      exact List.mem_cons_of_mem _ (ih h)

/-- Without one, it reaches the root. -/
theorem chain_of_no_guard {d : Device} (h : d.guard = none) : d.chain = d.ancestors := by
  induction d with
  | root i => rfl
  | child i q ih =>
    rw [Device.guard, Device.ancestors, List.find?_cons] at h
    by_cases hp : (Device.child i q).canProtect = true
    · rw [hp] at h
      cases h
    · simp only [hp] at h
      rw [Device.chain, if_neg hp, Device.ancestors, ih h]

end SeCloak
