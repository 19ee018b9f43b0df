import Mathlib.Data.List.Nodup
import SeCloak.Kernel.Walk

/-!
# The device table (`dt.c:15-71`)

Devices are hashed by the offset of their node, and put in front of the list of their bucket. The
iterator keeps the index of a bucket and the device that was visited last; it is the condition of the
loop, so that a body that ends early goes on with the next device.
-/

namespace SeCloak
open Misc

/-- A list is put together from parts, and one of them gets another element. -/
theorem perm_flatMap_update {α : Type} {f : Nat → List α} {b : Nat} {x : α} {bs : List Nat}
    (hmem : b ∈ bs) (hnodup : bs.Nodup) :
    (bs.flatMap (Function.update f b (x :: f b))).Perm (x :: bs.flatMap f) := by
  induction bs with
  | nil => cases hmem
  | cons c bs ih =>
    obtain ⟨hc, hbs⟩ := List.nodup_cons.mp hnodup
    rw [List.flatMap_cons, List.flatMap_cons]
    rcases List.mem_cons.mp hmem with rfl | hmem
    · have hrest : bs.flatMap (Function.update f b (x :: f b)) = bs.flatMap f := by
        apply List.flatMap_congr
        intro c hcmem
        rw [Function.update_of_ne]
        rintro rfl
        exact hc hcmem
      rw [hrest, Function.update_self, List.cons_append]
    · have hne : c ≠ b := by
        rintro rfl
        exact hc hmem
      rw [Function.update_of_ne hne]
      exact ((ih hmem hbs).append_left (f c)).trans List.perm_middle

/-! ## Lookup -/

/-- The index of a bucket is inside of the table. -/
theorem bucketOf_lt (node : Int) : bucketOf node < deviceTableSize := by
  rw [bucketOf, hash32, BitVec.toNat_ushiftRight, Nat.shiftRight_eq_div_pow]
  have hlt := (BitVec.ofInt 32 node * 0x61C88647).isLt
  simp only [deviceTableSize]
  omega

namespace DeviceTable

variable {t : DeviceTable} {dev : Device} {devs : List Device} {node : Int}

@[simp] theorem bucket_insert_self :
    (t.insert dev).bucket (bucketOf dev.info.node) = dev :: t.bucket (bucketOf dev.info.node) :=
  Function.update_self ..

theorem bucket_insert_of_ne {b : Nat} (h : b ≠ bucketOf dev.info.node) :
    (t.insert dev).bucket b = t.bucket b := Function.update_of_ne h ..

theorem lookup_insert_self : (t.insert dev).lookup dev.info.node = some dev := by
  rw [lookup, bucket_insert_self, List.find?_cons_of_pos]
  exact decide_eq_true rfl

theorem lookup_insert_of_ne (h : dev.info.node ≠ node) : (t.insert dev).lookup node = t.lookup node := by
  rw [lookup, lookup]
  by_cases hb : bucketOf node = bucketOf dev.info.node
  · rw [hb, bucket_insert_self, List.find?_cons_of_neg]
    simpa using h
  · rw [bucket_insert_of_ne hb]

/-- The table after a sequence of insertions. -/
def insertAll (t : DeviceTable) (devs : List Device) : DeviceTable := devs.foldl insert t

/-- Insertions of other nodes do not change what is found for a node. -/
theorem lookup_insertAll_of_not_mem (h : ∀ d ∈ devs, d.info.node ≠ node) :
    (t.insertAll devs).lookup node = t.lookup node := by
  induction devs generalizing t with
  | nil => rfl
  | cons d devs ih =>
    obtain ⟨hd, hdevs⟩ := List.forall_mem_cons.mp h
    exact (ih hdevs).trans (lookup_insert_of_ne hd)

theorem lookup_insertAll (hdistinct : (devs.map (·.info.node)).Nodup) (hmem : dev ∈ devs) :
    (t.insertAll devs).lookup dev.info.node = some dev := by
  induction devs generalizing t with
  | nil => cases hmem
  | cons d devs ih =>
    rw [List.map_cons, List.nodup_cons] at hdistinct
    obtain ⟨hd, hdevs⟩ := hdistinct
    rcases List.mem_cons.mp hmem with rfl | hmem
    · -- the later insertions are of other nodes
      have hother : ∀ d ∈ devs, d.info.node ≠ dev.info.node := by
        intro d hdmem heq
        exact hd (heq ▸ List.mem_map_of_mem hdmem)
      exact (lookup_insertAll_of_not_mem hother).trans lookup_insert_self
    · exact ih hdevs hmem

/-! ## Iteration -/

theorem devices_insert (t : DeviceTable) (dev : Device) :
    (t.insert dev).devices.Perm (dev :: t.devices) := by
  rw [devices_eq, devices_eq]
  apply perm_flatMap_update
  · rw [List.mem_range'_1]
    have hlt := bucketOf_lt dev.info.node
    omega
  · exact List.nodup_range'

theorem devices_insertAll (t : DeviceTable) (devs : List Device) :
    (t.insertAll devs).devices.Perm (devs ++ t.devices) := by
  induction devs generalizing t with
  | nil => exact .refl _
  | cons d devs ih =>
    have hrest : (devs ++ (t.insert d).devices).Perm (devs ++ d :: t.devices) :=
      (devices_insert t d).append_left devs
    exact (ih (t.insert d)).trans (hrest.trans List.perm_middle)

/-- The table before the first insertion. -/
def empty : DeviceTable := ⟨fun _ => []⟩

theorem devices_empty : empty.devices = [] := by
  rw [devices_eq, bucketsFrom, List.flatMap_eq_nil_iff]
  exact fun _ _ => rfl

/-- `device_for_each` (`dt.c:59-60`) with its body, for at most `fuel` rounds. A body that executes
`continue` is one that returns early. -/
def deviceForEach {σ τ : Type} (t : DeviceTable) (body : Device → Code σ τ Fault Unit) :
    Nat → Nat → List Device → Code σ τ Fault Unit
  | 0, _, _ => Code.throw .waiting
  | fuel + 1, b, dev =>
    match t.deviceNext b dev with
    | (_, []) => pure ()
    | (b', d :: rest) => do
      body d
      t.deviceForEach body fuel b' (d :: rest)

/-- The loop runs its body for the devices that the iterator yields. -/
theorem deviceForEach_eq {σ τ : Type} (t : DeviceTable) (body : Device → Code σ τ Fault Unit) (fuel b : Nat)
    (dev : List Device) (h : (t.forEachFrom fuel b dev).length < fuel) :
    t.deviceForEach body fuel b dev = Code.forEach body (t.forEachFrom fuel b dev) := by
  induction fuel generalizing b dev with
  | zero => exact absurd h (by omega)
  | succ fuel ih =>
    rw [deviceForEach]
    rw [forEachFrom] at h ⊢
    generalize t.deviceNext b dev = next at h ⊢
    obtain ⟨b', rest⟩ := next
    cases rest with
    | nil => rfl
    | cons d rest =>
      rw [List.length_cons] at h
      change (do body d; t.deviceForEach body fuel b' (d :: rest)) =
        Code.forEach body (d :: t.forEachFrom fuel b' (d :: rest))
      rw [ih b' (d :: rest) (by omega), Code.forEach]

/-- With more fuel than there are devices, the loop ends and is the loop over the list of the
devices. -/
theorem deviceForEach_devices {σ τ : Type} (t : DeviceTable) (body : Device → Code σ τ Fault Unit)
    {fuel : Nat} (h : t.devices.length < fuel) :
    t.deviceForEach body fuel 0 [] = Code.forEach body t.devices := by
  have hstep := t.bucketsFrom_step (b := 0) (by decide)
  have hnext : t.deviceNext 0 [] = t.skipEmpty deviceTableSize 0 (t.bucket 0) := by
    simp [deviceNext]
  have hlist : t.forEachFrom fuel 0 [] = t.devices := by
    rw [devices_eq, hstep] at h ⊢
    exact t.forEachFrom_eq fuel 0 [] (t.bucket 0) hnext h
  rw [deviceForEach_eq t body fuel 0 [] (by rw [hlist]; exact h), hlist]

end DeviceTable

/-- After insertions of distinct nodes each node is found, no other node is, and a loop over the table
runs its body once for each device. -/
theorem deviceTable_insertAll (devs : List Device) (hdistinct : (devs.map (·.info.node)).Nodup) :
    (∀ dev ∈ devs, (DeviceTable.empty.insertAll devs).lookup dev.info.node = some dev) ∧
    (∀ node : Int, (∀ dev ∈ devs, dev.info.node ≠ node) →
      (DeviceTable.empty.insertAll devs).lookup node = none) ∧
    (∀ node : Int, bucketOf node < deviceTableSize) ∧
    ∃ order : List Device, order.Perm devs ∧ order.Nodup ∧
      ∀ (σ τ : Type) (body : Device → Code σ τ Fault Unit) (fuel : Nat), devs.length < fuel →
        (DeviceTable.empty.insertAll devs).deviceForEach body fuel 0 [] = Code.forEach body order := by
  have hperm : (DeviceTable.empty.insertAll devs).devices.Perm devs := by
    have h := DeviceTable.devices_insertAll DeviceTable.empty devs
    rwa [DeviceTable.devices_empty, List.append_nil] at h
  refine ⟨fun dev hdev => DeviceTable.lookup_insertAll hdistinct hdev, fun node hnode => ?_,
    bucketOf_lt, (DeviceTable.empty.insertAll devs).devices, hperm, ?_, fun σ τ body fuel hfuel => ?_⟩
  · exact DeviceTable.lookup_insertAll_of_not_mem hnode
  · exact hperm.nodup_iff.mpr (List.Nodup.of_map _ hdistinct)
  · exact DeviceTable.deviceForEach_devices _ body (by rw [hperm.length_eq]; exact hfuel)

/-- Three devices in different buckets. -/
def sampleDevices : List Device :=
  [.root ⟨-1, 0, .other, [], [], [], [], false⟩, .root ⟨20, 0, .other, [], [], [], [], false⟩,
    .root ⟨21, 0, .other, [], [], [], [], false⟩]

theorem deviceTable_insertAll_sample :
    (∀ dev ∈ sampleDevices,
      (DeviceTable.empty.insertAll sampleDevices).lookup dev.info.node = some dev) ∧
    (DeviceTable.empty.insertAll sampleDevices).lookup 22 = none :=
  have h := deviceTable_insertAll sampleDevices (by decide)
  ⟨h.1, h.2.1 22 (by decide)⟩

end SeCloak
