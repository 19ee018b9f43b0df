import SeCloak.Kernel.Numbers
import SeCloak.Misc.Terminated

/-!
# The classes of a device (`dt.c:82-105` and `dt.c:282-300`)

`fdt_stringlist_count` counts the strings of `sp-class` with a bounded scan and answers -1 where the
last one has no NUL, for which there is never memory. After that an unbounded scan collects the
pointers, and it stays inside of the property.
-/

namespace SeCloak
open Misc Misc.Code

/-! ## Counting -/

theorem stringlistCountFrom_succ {list : List Byte} (hne : list ≠ []) (fuel : Nat) (count : Int) :
    stringlistCountFrom (fuel + 1) list count =
      if strnlen list + 1 > list.length then -1
      else stringlistCountFrom fuel (list.drop (strnlen list + 1)) (count + 1) := by
  rw [stringlistCountFrom, if_neg hne]

/-- The count is the number of strings, or -1 if the list does not split into strings. -/
theorem stringlistCountFrom_eq {fuel : Nat} {list : List Byte} (count : Int)
    (hfuel : list.length ≤ fuel) :
    (∃ ss, SplitsInto 0 list ss ∧ stringlistCountFrom fuel list count = count + ss.length) ∨
      ((∀ ss, ¬ SplitsInto 0 list ss) ∧ stringlistCountFrom fuel list count = -1) := by
  induction fuel generalizing list count with
  | zero =>
    obtain rfl := List.length_eq_zero_iff.mp (Nat.le_zero.mp hfuel)
    exact Or.inl ⟨[], splitsInto_nil.mpr rfl, by simp [stringlistCountFrom]⟩
  | succ fuel ih =>
    by_cases hnil : list = []
    · subst hnil
      exact Or.inl ⟨[], splitsInto_nil.mpr rfl, by simp [stringlistCountFrom]⟩
    rw [stringlistCountFrom_succ hnil]
    have hlt : strnlen list < list.length ↔ 0 ∈ list := length_takeWhile_lt_iff
    by_cases hz : 0 ∈ list
    · have hin := hlt.mpr hz
      rw [if_neg (by omega)]
      have hrest : (list.drop (strnlen list + 1)).length ≤ fuel := by
        rw [List.length_drop]
        omega
      rcases ih (count + 1) hrest with ⟨ss, hss, hcount⟩ | ⟨hno, hcount⟩
      · refine Or.inl ⟨list.takeWhile (· ≠ 0) :: ss, ?_, ?_⟩
        · exact (splitsInto_iff_of_mem hz).mpr ⟨ss, rfl, hss⟩
        · rw [hcount, List.length_cons]
          omega
      · refine Or.inr ⟨fun ss hss => ?_, hcount⟩
        obtain ⟨ss', -, hss'⟩ := (splitsInto_iff_of_mem hz).mp hss
        exact hno ss' hss'
    · have hout : ¬ strnlen list < list.length := fun hin => hz (hlt.mp hin)
      rw [if_pos (by omega)]
      exact Or.inr ⟨fun ss => not_splitsInto_of_not_mem hz hnil, rfl⟩

theorem fdtStringlistCount_eq (list : List Byte) :
    (∃ ss, SplitsInto 0 list ss ∧ fdtStringlistCount list = ss.length) ∨
      ((∀ ss, ¬ SplitsInto 0 list ss) ∧ fdtStringlistCount list = -1) := by
  simpa [fdtStringlistCount] using stringlistCountFrom_eq 0 (le_refl list.length)

/-! ## Collecting -/

/-- From a pointer to strings their pointers are collected, all inside of the property. -/
theorem classPtrs_eq {spClass : List Byte} {ptr : Nat} {ss : List CString}
    (hss : SplitsInto 0 (spClass.drop ptr) ss) : ∃ ptrs, classPtrs spClass ss.length ptr = some ptrs ∧
      ptrs.map (stringAt spClass) = ss ∧ ∀ q ∈ ptrs, q < spClass.length := by
  induction ss generalizing ptr with
  | nil => exact ⟨[], rfl, rfl, by simp⟩
  | cons s ss ih =>
    obtain ⟨rest, hdrop, hs, hrest⟩ := splitsInto_cons.mp hss
    have hstring : (spClass.drop ptr).takeWhile (· ≠ 0) = s := by
      rw [hdrop, takeWhile_terminated hs]
    have hlen : strlen (spClass.drop ptr) = some s.length := by
      rw [strlen, strnlen, hstring, if_pos (by rw [hdrop]; simp)]
    have hnext : spClass.drop (ptr + s.length + 1) = rest := by
      rw [Nat.add_assoc, ← List.drop_drop, hdrop, ← List.drop_drop, List.drop_left]
      rfl
    obtain ⟨ptrs, hptrs, hmap, hin⟩ := ih (hnext ▸ hrest)
    refine ⟨ptr :: ptrs, ?_, ?_, ?_⟩
    · rw [List.length_cons, classPtrs, hlen]
      simp only [hptrs, Option.map_some]
    · rw [List.map_cons, hmap, stringAt, hstring]
    · rw [List.forall_mem_cons]
      refine ⟨?_, hin⟩
      have hpos := congrArg List.length hdrop
      rw [List.length_drop, List.length_append, List.length_cons] at hpos
      omega

section Parser

variable {m : Machine} {node : Nat} {spClass : FdtProp} {s s' : Dt} {w : List Event}

/-- The property ends with a NUL, or it holds no string. -/
def FdtProp.EndsInNul (p : FdtProp) : Prop := p.value = [] ∨ p.value.getLast? = some 0

/-- There is memory for the pointers. -/
def Machine.HasRoom (m : Machine) (s : Dt) (spClass : FdtProp) : Prop :=
  m.env.malloc s.sys.allocs = true ∧
    m.heap (BitVec.ofInt 32 (4 * fdtStringlistCount spClass.value)).toNat = true

/-- No heap serves the size that a count of -1 asks for. -/
theorem not_hasRoom_of_not_endsInNul (hnul : ¬ spClass.EndsInNul) : ¬ m.HasRoom s spClass := by
  rintro ⟨-, hheap⟩
  rcases fdtStringlistCount_eq spClass.value with ⟨ss, hss, -⟩ | ⟨-, hcount⟩
  · exact hnul (exists_splitsInto_iff.mp ⟨ss, hss⟩)
  · rw [hcount, m.heap_lt _ (by decide)] at hheap
    cases hheap

/-- The parser never faults: it collects the pointers to the strings of the property, or there was
no memory for them. -/
theorem dtParseSpClass_eq (hprop : m.fdt.getprop node "sp-class" = some spClass) (s : Dt) :
    (m.HasRoom s spClass ∧ ∃ ptrs s', Runs (dtParseSpClass m node) s [] (some ptrs) s' ∧
        SplitsInto 0 spClass.value (ptrs.map (stringAt spClass.value)) ∧
        ∀ q ∈ ptrs, q < spClass.len) ∨
      (¬ m.HasRoom s spClass ∧ ∃ s', Runs (dtParseSpClass m node) s [] none s') := by
  by_cases hroom : m.HasRoom s spClass
  · rcases fdtStringlistCount_eq spClass.value with ⟨ss, hss, hcount⟩ | ⟨hno, -⟩
    · have hstart : SplitsInto 0 (spClass.value.drop 0) ss := hss
      obtain ⟨ptrs, hptrs, hmap, hin⟩ := classPtrs_eq hstart
      refine Or.inl ⟨hroom, ptrs, s.counted, ?_, by rw [hmap]; exact hss, by simpa using hin⟩
      rw [dtParseSpClass, hprop]
      refine runs_bind.mpr ⟨[], true, _, [], machine_malloc_runs.mpr ⟨rfl, ?_, rfl⟩, ?_, rfl⟩
      · rw [hroom.1, hroom.2]
        rfl
      · rw [if_neg (by simp), hcount, Int.toNat_natCast, hptrs]
        exact runs_pure.mpr ⟨rfl, rfl, rfl⟩
    · refine absurd hroom (not_hasRoom_of_not_endsInNul fun hnul => ?_)
      obtain ⟨ss, hss⟩ := exists_splitsInto_iff.mpr hnul
      exact hno ss hss
  · refine Or.inr ⟨hroom, s.counted, ?_⟩
    rw [dtParseSpClass, hprop]
    refine runs_bind.mpr ⟨[], false, _, [], machine_malloc_runs.mpr ⟨rfl, ?_, rfl⟩, ?_, rfl⟩
    · symm
      rw [Bool.and_eq_false_iff]
      by_cases hm : m.env.malloc s.sys.allocs = true
      · exact Or.inr (Bool.eq_false_iff.mpr fun hh => hroom ⟨hm, hh⟩)
      · exact Or.inl (Bool.eq_false_iff.mpr hm)
    · rw [if_pos rfl]
      exact runs_pure.mpr ⟨rfl, rfl, rfl⟩

/-- What is recorded splits the property. -/
theorem dtParseSpClass_runs {ptrs : List Nat}
    (h : Runs (dtParseSpClass m node) s w (some ptrs) s')
    (hprop : m.fdt.getprop node "sp-class" = some spClass) :
    SplitsInto 0 spClass.value (ptrs.map (stringAt spClass.value)) ∧
      ∀ q ∈ ptrs, q < spClass.len := by
  rcases dtParseSpClass_eq hprop s with ⟨-, ptrs', t, hrun, hptrs⟩ | ⟨-, t, hrun⟩
  · have hsame := h.symm.trans hrun
    simp only [Outcome.mk.injEq, Except.ok.injEq, Prod.mk.injEq, Option.some.injEq] at hsame
    rwa [hsame.2.1]
  · have hsame := h.symm.trans hrun
    simp at hsame

end Parser

/-! ## Created devices -/

/-- The run of `device_create` has come to `sp-class` in the state `s'`, and nothing failed so far. -/
def ComesToClasses (m : Machine) (probe : Nat → DtCode (Option Device)) (fuel node : Nat)
    (parent : Option Device) (s : Dt) (w : List Event) (s' : Dt) : Prop :=
  ∃ s₁ s₂ s₃ w₀ w₁ w₂ w₃ resources irqs csu,
    Runs (onSys (SeCloak.malloc m.env)) s w₀ true s₁ ∧
      Runs (dtParseResources m node parent) s₁ w₁ (some resources) s₂ ∧
      Runs (dtParseInterrupts m probe fuel node parent) s₂ w₂ (some irqs) s₃ ∧
      Runs (dtParseSpCsu m node) s₃ w₃ (some csu) s' ∧ w = w₀ ++ (w₁ ++ (w₂ ++ w₃))

section Create

variable {m : Machine} {probe : Nat → DtCode (Option Device)} {fuel node : Nat}
  {parent : Option Device} {spClass : FdtProp} {s s' : Dt} {w : List Event}

/-- `device_create` passes over the node (`dt.c:304-306`). -/
def Fdt.Skips (fdt : Fdt) (node : Nat) (strict : Bool) : Prop :=
  strict = true ∧ (fdt.getprop node "compatible" = none ∨ fdt.disabled node = true)

theorem deviceCreate_eq {strict : Bool} (hnode : ¬ m.fdt.Skips node strict) :
    deviceCreate m probe fuel node parent strict =
      deviceParse m probe fuel node parent >>= fun dev => pure (some dev) := if_neg hnode

/-- Without room for the classes the device is not created. -/
theorem deviceParse_panics (hprop : m.fdt.getprop node "sp-class" = some spClass)
    (hcome : ComesToClasses m probe fuel node parent s w s') (hroom : ¬ m.HasRoom s' spClass) :
    Stops (deviceParse m probe fuel node parent) s w .panic := by
  obtain ⟨s₁, s₂, s₃, w₀, w₁, w₂, w₃, resources, irqs, csu, h₀, h₁, h₂, h₃, rfl⟩ := hcome
  rcases dtParseSpClass_eq hprop s' with ⟨hyes, -⟩ | ⟨-, t, h₄⟩
  · exact absurd hyes hroom
  · refine stops_bind.mpr (Or.inr ⟨w₀, true, s₁, _, h₀, ?_, rfl⟩)
    refine stops_require_bind.mpr (Or.inr ⟨rfl, ?_⟩)
    refine stops_bind.mpr (Or.inr ⟨w₁, _, s₂, _, h₁, ?_, rfl⟩)
    refine stops_bind.mpr (Or.inr ⟨w₂, _, s₃, _, h₂, ?_, rfl⟩)
    refine stops_bind.mpr (Or.inr ⟨w₃, _, s', [], h₃, ?_, (List.append_nil w₃).symm⟩)
    refine stops_bind.mpr (Or.inr ⟨[], none, t, [], h₄, ?_, rfl⟩)
    exact stops_throw.mpr ⟨rfl, rfl⟩

/-- With room for the classes the device is created. -/
theorem deviceParse_returns (hprop : m.fdt.getprop node "sp-class" = some spClass)
    (hcome : ComesToClasses m probe fuel node parent s w s') (hroom : m.HasRoom s' spClass) :
    ∃ d t, Runs (deviceParse m probe fuel node parent) s w d t := by
  obtain ⟨s₁, s₂, s₃, w₀, w₁, w₂, w₃, resources, irqs, csu, h₀, h₁, h₂, h₃, rfl⟩ := hcome
  rcases dtParseSpClass_eq hprop s' with ⟨-, ptrs, t, h₄, -⟩ | ⟨hno, -⟩
  · refine ⟨deviceOf (m.deviceInfo node parent resources irqs csu ptrs) parent, t,
      runs_bind.mpr ⟨w₀, true, s₁, _, h₀, ?_, rfl⟩⟩
    refine runs_require_bind.mpr ⟨rfl, ?_⟩
    refine runs_bind.mpr ⟨w₁, _, s₂, _, h₁, ?_, rfl⟩
    refine runs_bind.mpr ⟨w₂, _, s₃, _, h₂, ?_, rfl⟩
    refine runs_bind.mpr ⟨w₃, _, s', [], h₃, ?_, (List.append_nil w₃).symm⟩
    refine runs_bind.mpr ⟨[], some ptrs, t, [], h₄, ?_, rfl⟩
    exact runs_pure.mpr ⟨rfl, rfl, rfl⟩
  · exact absurd hroom hno

end Create

/-- For every content of `sp-class`: a device that `device_create` returns has the strings of the property as
its classes, through pointers into the property, and it returns none only for a node that it passes over.
Once it has come to `sp-class`, it panics if the property does not end with a NUL, and else it returns a
device as long as there is memory. -/
theorem deviceCreate_classes (m : Machine) (probe : Nat → DtCode (Option Device)) (fuel node : Nat)
    (parent : Option Device) (strict : Bool) (spClass : FdtProp)
    (hprop : m.fdt.getprop node "sp-class" = some spClass) :
    (∀ s w d s', Runs (deviceCreate m probe fuel node parent strict) s w (some d) s' →
      ∃ ptrs : List Nat, SplitsInto 0 spClass.value (ptrs.map (stringAt spClass.value)) ∧
        (∀ ptr ∈ ptrs, ptr < spClass.len) ∧ d.info.classes = ptrs.map (stringAt spClass.value) ∧
        ∀ name, deviceHasClass d name = true ↔ name ∈ ptrs.map (stringAt spClass.value)) ∧
    (∀ s w s', Runs (deviceCreate m probe fuel node parent strict) s w none s' →
      m.fdt.Skips node strict) ∧
    (∀ s w s', ComesToClasses m probe fuel node parent s w s' → ¬ m.fdt.Skips node strict →
      (¬ spClass.EndsInNul → Stops (deviceCreate m probe fuel node parent strict) s w .panic) ∧
      (spClass.EndsInNul → m.HasRoom s' spClass →
        ∃ d t, Runs (deviceCreate m probe fuel node parent strict) s w (some d) t)) := by
  refine ⟨fun s w d s' h => ?_, fun s w s' h => ?_, fun s w s' hcome hnode => ⟨fun hnul => ?_,
    fun _ hroom => ?_⟩⟩
  · obtain ⟨parsed⟩ := deviceCreate_runs h
    obtain ⟨hsplit, hin⟩ := dtParseSpClass_runs parsed.classesRun hprop
    have hclasses : d.info.classes = parsed.ptrs.map (stringAt spClass.value) := by
      rw [parsed.info, Machine.deviceInfo, Fdt.classes, hprop]
    refine ⟨parsed.ptrs, hsplit, hin, hclasses, fun name => ?_⟩
    rw [deviceHasClass, decide_eq_true_iff, hclasses]
  · by_contra hnode
    rw [deviceCreate_eq hnode] at h
    obtain ⟨_, d, _, _, -, hd, -⟩ := runs_bind.mp h
    cases (runs_pure.mp hd).2.1
  · rw [deviceCreate_eq hnode]
    exact stops_bind.mpr
      (Or.inl (deviceParse_panics hprop hcome (not_hasRoom_of_not_endsInNul hnul)))
  · obtain ⟨d, t, hrun⟩ := deviceParse_returns hprop hcome hroom
    rw [deviceCreate_eq hnode]
    exact ⟨d, t, runs_bind.mpr ⟨w, d, t, [], hrun, runs_pure.mpr ⟨rfl, rfl, rfl⟩,
      (List.append_nil w).symm⟩⟩

namespace Board

/-- The class `wifi`, and one without a name. -/
def wifiNames : FdtProp where
  len := 6
  mem off := (ascii ['w', 'i', 'f', 'i']).getD off.toNat 0
  len_lt := by decide

/-- The tree with the radio, which has these classes. -/
def wifiMachine : Machine where
  env := imx6
  fdt := { wideTree with
    getprop := fun node name => if name = "sp-class" then some wifiNames else wideTree.getprop node name }
  hw := noHardware

theorem wifi_created : ∃ w d t, Runs (deviceCreate wifiMachine (fun _ => pure none) 0 20 (some soc) true)
    ⟨booted imx6 0, table, {}⟩ w (some d) t := by
  obtain ⟨w, d, t, hrun, hsome⟩ := runs_of_out (f := Option.isSome) (b := true)
    (m := deviceCreate wifiMachine (fun _ => pure none) 0 20 (some soc) true)
    (s := ⟨booted imx6 0, table, {}⟩) (by decide +kernel)
  obtain ⟨d, rfl⟩ := Option.isSome_iff_exists.mp hsome
  exact ⟨w, d, t, hrun⟩

end Board

/-- The radio is created, and has both classes. -/
theorem deviceCreate_classes_wifi :
    ∃ w d t, ∃ ptrs : List Nat, Runs (deviceCreate Board.wifiMachine (fun _ => pure none) 0 20 (some Board.soc) true)
        ⟨Board.booted imx6 0, Board.table, {}⟩ w (some d) t ∧
      SplitsInto 0 Board.wifiNames.value (ptrs.map (stringAt Board.wifiNames.value)) ∧
      (∀ ptr ∈ ptrs, ptr < Board.wifiNames.len) ∧
      d.info.classes = ptrs.map (stringAt Board.wifiNames.value) ∧
      ∀ name, deviceHasClass d name = true ↔ name ∈ ptrs.map (stringAt Board.wifiNames.value) := by
  obtain ⟨w, d, t, hrun⟩ := Board.wifi_created
  obtain ⟨ptrs, hptrs⟩ := (deviceCreate_classes Board.wifiMachine (fun _ => pure none) 0 20
    (some Board.soc) true Board.wifiNames rfl).1 _ w d t hrun
  exact ⟨w, d, t, ptrs, hrun, hptrs⟩

end SeCloak
