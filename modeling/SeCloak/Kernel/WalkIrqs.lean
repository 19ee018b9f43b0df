import SeCloak.Kernel.Specifiers
import SeCloak.Kernel.WalkParts

/-!
# The interrupts that a walk finds

Along a walk the chips stay with their controllers, and the interrupts of every device in the table
are those of its specifiers (`Dt.Sound`). The recursion keeps this if the probe of a controller
does.
-/

namespace SeCloak
open Misc Misc.Code

/-! ## Walks -/

/-- No 32-bit computation on the way through the properties of a device wraps. -/
def Fdt.Unwrapped (fdt : Fdt) (d : Device) : Prop :=
  fdt.PlainFits d.info.node.toNat (Fdt.nodesOf d) ∧
    ∀ specs ∈ fdt.extendedSpecifiers d.info.node.toNat, Fdt.ExtendedFits specs

/-- The interrupts of a device are those of its specifiers, but for what wraps. -/
def Dt.Described (m : Machine) (s : Dt) (d : Device) : Prop :=
  ∃ specs, m.fdt.specifiers d = some specs ∧ s.Found m (m.fdt.Unwrapped d) specs d.info.irqs

structure Dt.Sound (m : Machine) (s : Dt) : Prop where
  wired : s.Wired m
  table : ∀ b, ∀ d ∈ s.table.bucket b, s.Described m d

/-- What every part of a walk does. -/
def Walks (m : Machine) : Dt → List Event → Dt → Prop :=
  fun s _ s' => s.Sound m → s'.Sound m ∧ s.Grown m s'

theorem walks_closed (m : Machine) : Closed (Walks m) where
  nil s hs := ⟨hs, Dt.Grown.refl s⟩
  append h h' hs := by
    obtain ⟨hs', hgrown⟩ := h hs
    obtain ⟨hs'', hgrown'⟩ := h' hs'
    exact ⟨hs'', hgrown.trans hgrown'⟩

section Parts

variable {m : Machine} {s s' : Dt} {w : List Event}

theorem Dt.Described.mono {d : Device} (h : s.Described m d) (hgrown : s.Grown m s') :
    s'.Described m d := by
  obtain ⟨specs, hspecs, hfound⟩ := h
  exact ⟨specs, hspecs, hfound.mono hgrown⟩

theorem walks_of_shape (hshape : s'.sys.shape = s.sys.shape) (hchips : s'.chips = s.chips)
    (htable : s'.table = s.table) : Walks m s w s' := by
  intro hs
  have hgrown : s.Grown m s' := Dt.grown_of_shape hshape hchips
  refine ⟨⟨hs.wired.of_shape hshape hchips, fun b d hd => ?_⟩, hgrown⟩
  rw [htable] at hd
  exact (hs.table b d hd).mono hgrown

theorem machine_malloc_walks (size : Int) : Within (m.malloc size) (Walks m) := by
  intro s w ok s' h
  obtain ⟨-, -, rfl⟩ := machine_malloc_runs.mp h
  exact walks_of_shape rfl rfl rfl

theorem onSys_malloc_walks : Within (onSys (SeCloak.malloc m.env)) (Walks m) := by
  intro s w ok s' h
  obtain ⟨-, -, rfl⟩ := onSys_malloc_runs.mp h
  exact walks_of_shape rfl rfl rfl

theorem onSys_kassert_walks (p : Prop) [Decidable p] : Within (onSys (kassert m.env p)) (Walks m) := by
  intro s w u s' h
  obtain ⟨t, ht, rfl⟩ := runs_zoom.mp h
  obtain ⟨-, rfl, -⟩ := runs_kassert.mp ht
  exact walks_of_shape rfl rfl rfl

theorem deviceLookup_runs {node : Nat} {found : Option Device} :
    Runs (deviceLookup node) s w found s' ↔ w = [] ∧ found = s.table.lookup node ∧ s' = s := by
  rw [deviceLookup, runs_get_bind, runs_pure]

theorem lookup_node {t : DeviceTable} {node : Int} {d : Device} (h : t.lookup node = some d) :
    d.info.node = node := by
  have hd := List.find?_some h
  simpa using hd

theorem irqFindChip_runs {d : Device} {c : ChipId} (h : Runs (irqFindChip d) s w (some c) s') :
    s' = s ∧ c ∈ s.chips.order ∧ s.chips.dev c = some d := by
  rw [irqFindChip, runs_get_bind] at h
  cases hfind : s.chips.order.find? (fun c => s.chips.dev c = some d) with
  | none =>
    rw [hfind] at h
    cases hcyclic : s.chips.cyclic with
    | true => simp [hcyclic] at h
    | false => simp [hcyclic] at h
  | some c' =>
    rw [hfind] at h
    obtain ⟨-, hc, rfl⟩ := runs_pure.mp h
    obtain rfl := Option.some.inj hc
    refine ⟨rfl, List.mem_of_find?_eq_some hfind, ?_⟩
    simpa using List.find?_some hfind

/-! ## The probe of another device -/

/-- What a walk may rely on when it probes the device of another node. -/
structure ProbeOk (m : Machine) (probe : Nat → DtCode (Option Device)) : Prop where
  walks : ∀ offset, Within (probe offset) (Walks m)
  node : ∀ {offset s w d s'}, Runs (probe offset) s w (some d) s' → d.info.node = (offset : Nat)

variable {probe : Nat → DtCode (Option Device)}

theorem deviceFor_walks (hprobe : ProbeOk m probe) (offset : Nat) :
    Within (deviceFor probe offset) (Walks m) := by
  refine within_bind (walks_closed m) ?_ fun found => ?_
  · intro s w found s' h
    obtain ⟨-, -, rfl⟩ := deviceLookup_runs.mp h
    exact walks_of_shape rfl rfl rfl
  · cases found with
    | some d => exact within_pure (walks_closed m) _
    | none => exact hprobe.walks offset

theorem walks_parses (hprobe : ProbeOk m probe) : Parses m probe (Walks m) where
  closed := walks_closed m
  alloc := onSys_malloc_walks
  malloc := machine_malloc_walks
  asserts p _ := onSys_kassert_walks p
  controller _ offset _ := deviceFor_walks hprobe offset

theorem deviceFor_node (hprobe : ProbeOk m probe) {offset : Nat} {d : Device}
    (h : Runs (deviceFor probe offset) s w (some d) s') : d.info.node = offset := by
  obtain ⟨_, found, s₁, _, hlookup, h, -⟩ := runs_bind.mp h
  obtain ⟨-, rfl, rfl⟩ := deviceLookup_runs.mp hlookup
  cases hfound : s₁.table.lookup offset with
  | none =>
    rw [hfound] at h
    exact hprobe.node h
  | some d' =>
    rw [hfound] at h
    obtain ⟨-, hd, -⟩ := runs_pure.mp h
    obtain rfl := Option.some.inj hd
    exact lookup_node hfound

/-- A chip that is found for the device of a controller is one that its driver constructed. -/
theorem Dt.Wired.chipFor (hs : s.Wired m) {d : Device} {offset : Nat} (hnode : d.info.node = offset)
    {c : ChipId} (hlisted : c ∈ s.chips.order) (hdev : s.chips.dev c = some d) :
    s.ChipFor m offset c := by
  obtain ⟨d', node, hnode', hdev', hfor⟩ := hs.owned c hlisted
  obtain rfl : d' = d := Option.some.inj (hdev'.symm.trans hdev)
  have hsame : node = offset := Int.ofNat.inj (hnode'.symm.trans hnode)
  exact hsame ▸ hfor

/-! ## `interrupts-extended` -/

theorem slt_ofNat {a b : Nat} (ha : a < 2 ^ 31) (hb : b < 2 ^ 31) :
    (BitVec.ofNat 32 a).slt (BitVec.ofNat 32 b) = decide (a < b) := by
  have hint : ∀ {n : Nat}, n < 2 ^ 31 → (BitVec.ofNat 32 n).toInt = n := by
    intro n hn
    rw [BitVec.toInt_eq_toNat_of_lt, BitVec.toNat_ofNat, Nat.mod_eq_of_lt]
    · omega
    · rw [BitVec.toNat_ofNat]
      omega
  rw [BitVec.slt, hint ha, hint hb]
  simp

/-- An index that leaves the positive numbers, whether it wraps or not, is below the length. -/
theorem slt_of_wrapped {a b : Nat} {c : Word} (hab : a < b) (hb : b < 2 ^ 30)
    (hc : 2 ^ 31 ≤ a + 1 + c.toNat) :
    (BitVec.ofNat 32 (a + 1 + c.toNat)).slt (BitVec.ofNat 32 b) = true := by
  have hint : (BitVec.ofNat 32 b).toInt = b := by
    rw [BitVec.toInt_eq_toNat_of_lt, BitVec.toNat_ofNat, Nat.mod_eq_of_lt]
    · omega
    · rw [BitVec.toNat_ofNat]
      omega
  have hlt := c.isLt
  rw [BitVec.slt, hint, decide_eq_true_iff, BitVec.toInt_eq_toNat_cond, BitVec.toNat_ofNat]
  split <;> omega

section Extended

variable {irqs : FdtProp} {fuel : Nat} {index : Word} {infos infos' : List IrqInfo}

/-- One round of the loop that reads a specifier: the controller is found, and its chip with it. -/
structure ExtendedRound (m : Machine) (probe : Nat → DtCode (Option Device)) (irqs : FdtProp)
    (fuel : Nat) (index : Word) (infos : List IrqInfo) (s : Dt) (infos' : List IrqInfo) (s' : Dt) where
  (controller : Nat)
  (cells : Word)
  (chip : ChipId)
  (s₁ : Dt)
  (w₁ w₂ : List Event)
  (phandle : m.fdt.nodeOffsetByPhandle (irqs.cell index) = some controller)
  (cellsOf : m.fdt.interruptCells controller = some cells)
  (walks : Walks m s w₁ s₁)
  (chipFor : s.Sound m → s₁.ChipFor m controller chip)
  (rest : Runs (parseExtended m probe irqs fuel (index + 1 + cells)
    (infos ++ [irqs.irqInfo chip (index + 1)])) s₁ w₂ (some infos') s')

theorem parseExtended_round (hprobe : ProbeOk m probe)
    (hlt : index.slt (BitVec.ofNat 32 (irqs.len / 4)) = true)
    (h : Runs (parseExtended m probe irqs (fuel + 1) index infos) s w (some infos') s') :
    Nonempty (ExtendedRound m probe irqs fuel index infos s infos' s') := by
  rw [parseExtended, if_pos hlt] at h
  cases hphandle : m.fdt.nodeOffsetByPhandle (irqs.cell index) with
  | none => simp [hphandle] at h
  | some controller =>
    simp only [hphandle] at h
    obtain ⟨w₁, found, s₁, _, hdev, h, -⟩ := runs_bind.mp h
    cases found with
    | none => simp at h
    | some d =>
      obtain ⟨w₂, listed, s₂, _, hchip, h, -⟩ := runs_bind.mp h
      cases listed with
      | none => simp at h
      | some chip =>
        cases hcells : m.fdt.interruptCells controller with
        | none => simp [hcells] at h
        | some cells =>
          simp only [hcells] at h
          obtain ⟨w₃, ok, s₃, w₄, hmalloc, h, -⟩ := runs_bind.mp h
          obtain ⟨rfl, hlisted, hdevice⟩ := irqFindChip_runs hchip
          have hwalks := (walks_closed m).append (deviceFor_walks hprobe controller hdev)
            (machine_malloc_walks _ hmalloc)
          cases ok with
          | false => simp at h
          | true =>
            refine ⟨⟨controller, cells, chip, s₃, _, w₄, hphandle, hcells, hwalks, fun hs => ?_, h⟩⟩
            obtain ⟨hs₂, -⟩ := deviceFor_walks hprobe controller hdev hs
            obtain ⟨-, hgrown⟩ := machine_malloc_walks _ hmalloc hs₂
            exact hgrown _ _ (hs₂.wired.chipFor (deviceFor_node hprobe hdev) hlisted hdevice)

theorem parseExtended_end (hlt : index.slt (BitVec.ofNat 32 (irqs.len / 4)) = false)
    (h : Runs (parseExtended m probe irqs (fuel + 1) index infos) s w (some infos') s') :
    infos' = infos ∧ Walks m s w s' := by
  rw [parseExtended, hlt, if_neg Bool.false_ne_true] at h
  obtain ⟨w₁, u, s₁, w₂, hassert, hend, rfl⟩ := runs_bind.mp h
  obtain ⟨rfl, hinfos, rfl⟩ := runs_pure.mp hend
  refine ⟨Option.some.inj hinfos, ?_⟩
  rw [List.append_nil]
  exact onSys_kassert_walks _ hassert

/-- The loop only adds interrupts. -/
theorem parseExtended_extends (hprobe : ProbeOk m probe)
    (h : Runs (parseExtended m probe irqs fuel index infos) s w (some infos') s') :
    infos <+: infos' := by
  induction fuel generalizing index infos s w with
  | zero => exact absurd h runs_throw
  | succ fuel ih =>
    cases hlt : index.slt (BitVec.ofNat 32 (irqs.len / 4)) with
    | false => exact (parseExtended_end hlt h).1 ▸ List.prefix_rfl
    | true =>
      obtain ⟨round⟩ := parseExtended_round hprobe hlt h
      exact (List.prefix_append _ _).trans (ih round.rest)

theorem parseExtended_longer (hprobe : ProbeOk m probe)
    (hlt : index.slt (BitVec.ofNat 32 (irqs.len / 4)) = true)
    (h : Runs (parseExtended m probe irqs fuel index infos) s w (some infos') s') :
    infos.length < infos'.length := by
  cases fuel with
  | zero => exact absurd h runs_throw
  | succ fuel =>
    obtain ⟨round⟩ := parseExtended_round hprobe hlt h
    have hle := (parseExtended_extends hprobe round.rest).length_le
    rw [List.length_append] at hle
    exact hle

theorem parseExtended_walks (hprobe : ProbeOk m probe) (fuel : Nat) (index : Word)
    (infos : List IrqInfo) : Within (parseExtended m probe irqs fuel index infos) (Walks m) :=
  parseExtended_within (walks_parses hprobe) irqs fuel index infos

theorem specifiersFrom_of_le {fdt : Fdt} {k pos : Nat} (h : irqs.len / 4 ≤ pos) :
    fdt.specifiersFrom irqs k pos = some [] := by
  cases k with
  | zero => rfl
  | succ k => rw [Fdt.specifiersFrom, if_neg (Nat.not_lt.mpr h)]

/-- From a position that does not wrap on, the loop finds the specifiers that follow. -/
theorem parseExtended_found {k pos : Nat} (hprobe : ProbeOk m probe) (hpos : pos < 2 ^ 31)
    (hk : irqs.len / 4 ≤ k + pos) (hs : s.Sound m)
    (h : Runs (parseExtended m probe irqs fuel (BitVec.ofNat 32 pos) infos) s w (some infos') s') :
    ∃ specs found, m.fdt.specifiersFrom irqs k pos = some specs ∧ infos' = infos ++ found ∧
      s'.Found m (Fdt.ExtendedFits specs) specs found := by
  have hlen := irqs.len_lt
  induction fuel generalizing pos infos s w k with
  | zero => exact absurd h runs_throw
  | succ fuel ih =>
    have hslt := slt_ofNat hpos (b := irqs.len / 4) (by omega)
    by_cases hlt : pos < irqs.len / 4
    · obtain ⟨⟨controller, cells, chip, s₁, _, _, hphandle, hcells, hwalks, hchip, hrest⟩⟩ :=
        parseExtended_round hprobe (by rw [hslt]; simpa using hlt) h
      obtain ⟨hs₁, -⟩ := hwalks hs
      obtain ⟨-, hgrown⟩ := parseExtended_walks hprobe _ _ _ hrest hs₁
      have hdecoded : s'.Decoded m ⟨controller, irqs, pos + 1, cells.toNat⟩
          (irqs.irqInfo chip (BitVec.ofNat 32 pos + 1)) := by
        refine ⟨chip, hgrown _ _ (hchip hs), ?_⟩
        rw [BitVec.ofNat_add]
        rfl
      have hnext : BitVec.ofNat 32 pos + 1 + cells = BitVec.ofNat 32 (pos + 1 + cells.toNat) := by
        rw [BitVec.ofNat_add, BitVec.ofNat_add, BitVec.ofNat_toNat, BitVec.setWidth_eq]
        rfl
      rw [hnext] at hrest
      cases k with
      | zero => omega
      | succ k =>
        simp only [Fdt.specifiersFrom, if_pos hlt, hphandle, hcells, Option.bind_eq_bind,
          Option.bind_some]
        by_cases hwrap : pos + 1 + cells.toNat < 2 ^ 31
        · obtain ⟨specs, found, hspecs, hinfos, hfound⟩ := ih (k := k) hwrap (by omega) hs₁ hrest
          refine ⟨_, _ :: found, by rw [hspecs]; rfl, by rw [hinfos, List.append_assoc]; rfl, ?_⟩
          have hone : s'.Found m (Fdt.ExtendedFits [⟨controller, irqs, pos + 1, cells.toNat⟩])
              [⟨controller, irqs, pos + 1, cells.toNat⟩]
              [irqs.irqInfo chip (BitVec.ofNat 32 pos + 1)] :=
            Or.inl ⟨by simpa [Fdt.ExtendedFits] using hwrap, .cons hdecoded .nil⟩
          refine (Dt.found_congr ?_).mp (hone.append hfound)
          simp [Fdt.ExtendedFits]
        · -- the index is negative or has wrapped: the loop goes on where the property has ended
          have hbelow := slt_of_wrapped hlt (by omega) (Nat.not_lt.mp hwrap)
          have hlonger := parseExtended_longer hprobe hbelow hrest
          obtain ⟨found, hinfos⟩ := parseExtended_extends hprobe hrest
          rw [specifiersFrom_of_le (by omega)]
          refine ⟨_, _ :: found, rfl, by rw [← hinfos, List.append_assoc]; rfl, Or.inr ⟨?_, ?_⟩⟩
          · simpa [Fdt.ExtendedFits] using hwrap
          · rw [← hinfos, @List.length_append _ _ found] at hlonger
            simpa using hlonger
    · obtain ⟨rfl, -⟩ := parseExtended_end (by rw [hslt]; simpa using hlt) h
      exact ⟨[], [], specifiersFrom_of_le (Nat.not_lt.mp hlt), by simp,
        Or.inl ⟨by simp [Fdt.ExtendedFits], .nil⟩⟩

end Extended

theorem dtParseInterruptsExt_walks (hprobe : ProbeOk m probe) (fuel node : Nat)
    (infos : List IrqInfo) : Within (dtParseInterruptsExt m probe fuel node infos) (Walks m) :=
  dtParseInterruptsExt_within (walks_parses hprobe) fuel node infos

theorem dtParseInterruptsExt_found {fuel node : Nat} {infos infos' : List IrqInfo}
    (hprobe : ProbeOk m probe) (hs : s.Sound m)
    (h : Runs (dtParseInterruptsExt m probe fuel node infos) s w (some infos') s') :
    ∃ specs found, m.fdt.extendedSpecifiers node = some specs ∧ infos' = infos ++ found ∧
      s'.Found m (Fdt.ExtendedFits specs) specs found := by
  unfold dtParseInterruptsExt at h
  unfold Fdt.extendedSpecifiers
  cases hirqs : m.fdt.getprop node "interrupts-extended" with
  | none =>
    simp only [hirqs] at h
    obtain ⟨-, hinfos, -⟩ := runs_pure.mp h
    refine ⟨[], [], rfl, ?_, Or.inl ⟨by simp [Fdt.ExtendedFits], .nil⟩⟩
    rw [Option.some.inj hinfos, List.append_nil]
  | some irqs =>
    simp only [hirqs] at h
    exact parseExtended_found hprobe (by decide) le_rfl hs h

/-! ## `interrupts` -/

section Plain

variable {irqs : FdtProp} {controller : Nat} {n : Word} {chip : ChipId}

/-- How many specifiers the code counts, with the size of a specifier in 32 bits. -/
def FdtProp.numIrqs (irqs : FdtProp) (n : Word) : Nat :=
  ((irqs.len : Int).tdiv (4 * n).toInt).toNat

theorem toNat_four_mul (n : Word) : (4 * n).toNat = 4 * n.toNat % 2 ^ 32 := BitVec.toNat_mul 4 n

theorem numIrqs_of_toInt {size : Nat} (h : (4 * n).toInt = (size : Nat)) :
    irqs.numIrqs n = irqs.len / size := by
  rw [FdtProp.numIrqs, h, ← Int.ofNat_tdiv, Int.toNat_natCast]

theorem numIrqs_small (h : n.toNat < 2 ^ 29) : irqs.numIrqs n = irqs.len / (4 * n.toNat) := by
  have hsize : (4 * n).toNat = 4 * n.toNat := by
    rw [toNat_four_mul, Nat.mod_eq_of_lt]
    omega
  refine numIrqs_of_toInt ?_
  rw [BitVec.toInt_eq_toNat_of_lt, hsize]
  omega

/-- A size that does not fit counts as no specifier, also when its sign bit is set. -/
theorem numIrqs_of_lt (h : irqs.len < (4 * n).toNat) : irqs.numIrqs n = 0 := by
  by_cases hsign : 2 * (4 * n).toNat < 2 ^ 32
  · rw [numIrqs_of_toInt (BitVec.toInt_eq_toNat_of_lt hsign), Nat.div_eq_of_lt h]
  · have hneg : (4 * n).toInt ≤ 0 := by
      have hlt := (4 * n).isLt
      rw [BitVec.toInt_eq_toNat_cond, if_neg hsign]
      omega
    rw [FdtProp.numIrqs]
    exact Int.toNat_of_nonpos (Int.tdiv_nonpos_of_nonneg_of_nonpos (Int.natCast_nonneg _) hneg)

theorem numIrqs_of_le (hpos : 4 * n ≠ 0) (h : (4 * n).toNat ≤ irqs.len) : 0 < irqs.numIrqs n := by
  have hlen := irqs.len_lt
  have hsize : 0 < (4 * n).toNat := by
    rw [Nat.pos_iff_ne_zero]
    exact fun hzero => hpos (BitVec.eq_of_toNat_eq hzero)
  rw [numIrqs_of_toInt (BitVec.toInt_eq_toNat_of_lt (by omega))]
  exact Nat.div_pos h hsize

/-- The interrupts that the code decodes are those of the specifiers that fit, unless the size of a
specifier wraps to one that fits. -/
theorem found_plain (irqs : FdtProp) (hpos : 4 * n ≠ 0) (hchip : s.ChipFor m controller chip) :
    s.Found m (n.toNat < 2 ^ 30 ∨ irqs.len < (4 * n).toNat)
      (Fdt.specifiersOf irqs controller n.toNat)
      ((List.range (irqs.numIrqs n)).map fun i => irqs.irqInfo chip (n * BitVec.ofNat 32 i)) := by
  have hlen := irqs.len_lt
  by_cases hsmall : n.toNat < 2 ^ 29
  · refine Or.inl ⟨Or.inl (by omega), ?_⟩
    rw [numIrqs_small hsmall, Fdt.specifiersOf, List.forall₂_map_left_iff,
      List.forall₂_map_right_iff, List.forall₂_same]
    intro i _
    refine ⟨chip, hchip, ?_⟩
    rw [BitVec.ofNat_mul, BitVec.ofNat_toNat, BitVec.setWidth_eq]
  have hnone : Fdt.specifiersOf irqs controller n.toNat = [] := by
    rw [Fdt.specifiersOf, Nat.div_eq_of_lt (by omega)]
    rfl
  rw [hnone]
  by_cases hfits : irqs.len < (4 * n).toNat
  · refine Or.inl ⟨Or.inr hfits, ?_⟩
    rw [numIrqs_of_lt hfits]
    exact .nil
  · refine Or.inr ⟨?_, ?_⟩
    · rw [toNat_four_mul] at hfits ⊢
      omega
    · simpa using numIrqs_of_le hpos (Nat.not_lt.mp hfits)

end Plain

/-! ## A node -/

section Node

variable {fuel node : Nat} {parent : Option Device}

theorem dtParseInterrupts_walks (hprobe : ProbeOk m probe) (fuel node : Nat)
    (parent : Option Device) : Within (dtParseInterrupts m probe fuel node parent) (Walks m) :=
  dtParseInterrupts_within (walks_parses hprobe) fuel node parent

/-- The specifiers of a node and its ancestors. -/
theorem dtParseInterrupts_found {infos : List IrqInfo} (hprobe : ProbeOk m probe) (hs : s.Sound m)
    (h : Runs (dtParseInterrupts m probe fuel node parent) s w (some infos) s') :
    ∃ plain extended, m.fdt.plainSpecifiers node (nodesFrom node parent) = some plain ∧
      m.fdt.extendedSpecifiers node = some extended ∧
        s'.Found m (m.fdt.PlainFits node (nodesFrom node parent) ∧ Fdt.ExtendedFits extended)
          (plain ++ extended) infos := by
  unfold dtParseInterrupts at h
  unfold Fdt.plainSpecifiers Fdt.PlainFits
  cases hirqs : m.fdt.interrupts node with
  | none =>
    simp only [hirqs] at h
    obtain ⟨extended, found, hextended, rfl, hfound⟩ := dtParseInterruptsExt_found hprobe hs h
    refine ⟨[], extended, rfl, hextended, ?_⟩
    refine (Dt.found_congr ?_).mp hfound
    simp
  | some irqs =>
    simp only [hirqs] at h
    cases hphandle : m.fdt.interruptParent (nodesFrom node parent) with
    | none => simp [hphandle] at h
    | some phandle =>
      simp only [hphandle] at h
      cases hcontroller : m.fdt.nodeOffsetByPhandle phandle with
      | none => simp [hcontroller] at h
      | some controller =>
        simp only [hcontroller] at h
        cases hcells : m.fdt.interruptCells controller with
        | none => simp [hcells] at h
        | some n =>
          simp only [hcells] at h
          have hplain : m.fdt.plainController (nodesFrom node parent) = some (controller, n) := by
            simp [Fdt.plainController, hphandle, hcontroller, hcells]
          obtain ⟨w₁, found, s₁, _, hdev, h, -⟩ := runs_bind.mp h
          cases found with
          | none => simp at h
          | some d =>
            obtain ⟨w₂, listed, s₂, _, hlisted, h, -⟩ := runs_bind.mp h
            cases listed with
            | none => simp at h
            | some chip =>
              obtain ⟨hpos, h⟩ := runs_require_bind.mp h
              obtain ⟨w₃, ok, s₃, w₄, hmalloc, hext, -⟩ := runs_bind.mp h
              cases ok with
              | false => simp at hext
              | true =>
                obtain ⟨rfl, hin, hdevice⟩ := irqFindChip_runs hlisted
                obtain ⟨hs₂, -⟩ := deviceFor_walks hprobe controller hdev hs
                obtain ⟨hs₃, hgrown⟩ := machine_malloc_walks _ hmalloc hs₂
                have hchip := hs₂.wired.chipFor (deviceFor_node hprobe hdev) hin hdevice
                obtain ⟨extended, rest, hextended, rfl, hrest⟩ :=
                  dtParseInterruptsExt_found hprobe hs₃ hext
                obtain ⟨-, hgrown'⟩ := dtParseInterruptsExt_walks hprobe _ _ _ hext hs₃
                have hfound := (found_plain irqs hpos (hgrown _ _ hchip)).mono hgrown'
                refine ⟨Fdt.specifiersOf irqs controller n.toNat, extended, ?_, hextended, ?_⟩
                · rw [hplain]
                  rfl
                · refine (Dt.found_congr ?_).mp (hfound.append hrest)
                  simp [hplain]

theorem dtParseResources_walks (node : Nat) (parent : Option Device) :
    Within (dtParseResources m node parent) (Walks m) :=
  dtParseResources_within (walks_closed m) machine_malloc_walks node parent

theorem dtParseSpCsu_walks (node : Nat) : Within (dtParseSpCsu m node) (Walks m) :=
  dtParseSpCsu_within (walks_closed m) machine_malloc_walks node

theorem dtParseSpClass_walks (node : Nat) : Within (dtParseSpClass m node) (Walks m) :=
  dtParseSpClass_within (walks_closed m) machine_malloc_walks node

theorem deviceCreate_walks (hprobe : ProbeOk m probe) (fuel node : Nat) (parent : Option Device)
    (strict : Bool) : Within (deviceCreate m probe fuel node parent strict) (Walks m) :=
  deviceCreate_within (walks_parses hprobe) fuel node parent strict

theorem nodesOf_deviceOf (info : DeviceInfo) (parent : Option Device) :
    Fdt.nodesOf (deviceOf info parent) = nodesFrom info.node.toNat parent := by
  cases parent <;> simp [Fdt.nodesOf, deviceOf, Device.ancestors, nodesFrom, Device.info]

/-- A device that is created describes its node. -/
theorem deviceCreate_described {strict : Bool} {d : Device} (hprobe : ProbeOk m probe)
    (hs : s.Sound m) (h : Runs (deviceCreate m probe fuel node parent strict) s w (some d) s') :
    s'.Described m d ∧ d.info.node = node := by
  obtain ⟨parsed⟩ := deviceCreate_runs h
  have hinfo := parsed.info
  have hnode : d.info.node = node := by rw [hinfo]; rfl
  have hnodes : Fdt.nodesOf d = nodesFrom node parent := by
    rw [parsed.device, nodesOf_deviceOf]
    rfl
  refine ⟨?_, hnode⟩
  obtain ⟨hs₁, -⟩ := onSys_malloc_walks parsed.allocated hs
  obtain ⟨hs₂, -⟩ := dtParseResources_walks node parent parsed.resourcesRun hs₁
  obtain ⟨hs₃, -⟩ := dtParseInterrupts_walks hprobe fuel node parent parsed.irqsRun hs₂
  obtain ⟨hs₄, hgrown⟩ := dtParseSpCsu_walks node parsed.csuRun hs₃
  obtain ⟨-, hgrown'⟩ := dtParseSpClass_walks node parsed.classesRun hs₄
  obtain ⟨plain, extended, hplain, hextended, hfound⟩ :=
    dtParseInterrupts_found hprobe hs₂ parsed.irqsRun
  refine ⟨plain ++ extended, ?_, ?_⟩
  · simp [Fdt.specifiers, hnode, hnodes, hplain, hextended]
  · have hirqs : d.info.irqs = parsed.irqs := by rw [hinfo]; rfl
    rw [hirqs]
    refine (Dt.found_congr ?_).mp ((hfound.mono hgrown).mono hgrown')
    simp [Fdt.Unwrapped, hnode, hnodes, hextended]

end Node

end Parts

end SeCloak
