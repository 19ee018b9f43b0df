import SeCloak.Kernel.BootProps
import SeCloak.Kernel.WalkParse

/-!
# The chips of a walk

How many interrupts a chip has is fixed when it is constructed, and only the driver of its device
constructs it. For each probe function a lemma says which chip it constructs. It follows that
`irq_find_chip` answers with a chip that the driver of the device constructed.
-/

namespace SeCloak
open Misc Misc.Code

/-- The size of each chip and whether it has its table, and the number of ports. -/
def Sys.shape (s : Sys) : (ChipId → Nat × Bool) × Nat :=
  (fun c => ((s.chip c).numIrqs, (s.chip c).handlers.isSome), s.gpio.allocated)

theorem LinesOnly.shape {s s' : Sys} (h : LinesOnly s s') : s'.shape = s.shape := by
  unfold Sys.shape
  rw [h.rest]

/-! ## Code that constructs no chip -/

theorem setHandler_shape (d : IrqDesc) (h : Option Handler) :
    Within (setHandler d h) (Keeps Sys.shape) := by
  intro s w u s' hr
  rw [setHandler, runs_get_bind] at hr
  cases hc : (s.chip d.chip).handlers with
  | none => simp [hc] at hr
  | some table =>
    simp only [hc, runs_modify] at hr
    obtain ⟨-, rfl⟩ := hr
    refine Prod.ext (funext fun c => ?_) rfl
    by_cases hcd : c = d.chip
    · subst hcd
      simp [Sys.shape, hc]
    · simp [Sys.shape, Function.update_of_ne hcd]

theorem modifyPin_shape (n irq : Nat) (f : Port → Port) :
    Within (modifyPin n irq f) (Keeps Sys.shape) := by
  intro s w r s' h
  obtain ⟨-, -, p, -, rfl⟩ := modifyPin_runs h
  rfl

theorem irqAdd_shape (env : Env) (d : IrqDesc) (flags : Word) (h : Handler) :
    Within (irqAdd env d flags h) (Keeps Sys.shape) :=
  within_irqAdd (keeps_closed _) (setHandler_shape d _) (fun _ => within_modify fun _ => rfl)
    fun n f _ => modifyPin_shape n d.irq f

theorem irqEnable_shape (env : Env) (d : IrqDesc) : Within (irqEnable env d) (Keeps Sys.shape) := by
  intro s w r s' h
  obtain ⟨-, -, rfl⟩ := irqEnable_runs h
  exact (linesOnly_onLine s d.line _ (by simp)).shape

theorem gpioAddIrq_shape (env : Env) (d : IrqDesc) (h : Handler) :
    Within (gpioAddIrq env d h) (Keeps Sys.shape) := by
  refine within_bind (keeps_closed _) (irqAdd_shape env d _ h) fun _ => ?_
  exact within_bind (keeps_closed _) (irqEnable_shape env d) fun _ => within_pure (keeps_closed _) ()

theorem malloc_shape (env : Env) : Within (malloc env) (Keeps Sys.shape) :=
  within_bind (keeps_closed _) (within_get (keeps_closed _)) fun _ =>
    within_bind (keeps_closed _) (within_modify fun _ => rfl) fun _ => within_pure (keeps_closed _) _

theorem modifyKeys_shape (f : Sys → Option KeysData) :
    Within (Code.modify fun s => { s with keys := f s } : Kernel Unit) (Keeps Sys.shape) :=
  within_modify fun _ => rfl

theorem gpioKeysAcquire_shape (env : Env) (handler : ButtonHandler) :
    Within (gpioKeysAcquire env handler) (Keeps Sys.shape) :=
  within_gpioKeysAcquire (keeps_closed _) (fun d _ => irqAdd_shape env d _ _) (irqEnable_shape env)
    fun _ => modifyKeys_shape _

theorem gpioKeysProbe_shape (env : Env) (nodes : List KeyNode) :
    Within (gpioKeysProbe env nodes) (Keeps Sys.shape) :=
  within_gpioKeysProbe (keeps_closed _) (malloc_shape env) modifyKeys_shape
    (gpioKeysAcquire_shape env _)

theorem fbProbe_shape (dev : Device) (mapped : Bool) (cpmem : Option Word) (words : Nat → Word) :
    Within (fbProbe dev mapped cpmem words) (Keeps Sys.shape) :=
  within_fbProbe (keeps_closed Sys.shape) fun _ => within_modify fun _ => rfl

/-! ## Code that constructs a chip -/

/-- The chip `c` was constructed with `size` interrupts. -/
def Sys.Constructed (s : Sys) (c : ChipId) (size : Nat) (s' : Sys) : Prop :=
  ∃ ok, s'.shape.1 = Function.update s.shape.1 c (size, ok)

theorem irqConstructChip_shape {env : Env} {chip : ChipId} {n : Nat} {d : Bool} {s s' : Sys}
    {w : List Event} {r : Int} (h : Runs (irqConstructChip env chip n d) s w r s') :
    s.Constructed chip n s' ∧ s'.gpio.allocated = s.gpio.allocated := by
  rw [irqConstructChip, runs_malloc_bind, runs_modify_bind, runs_pure] at h
  obtain ⟨-, -, rfl⟩ := h
  refine ⟨⟨env.malloc s.allocs, funext fun c => ?_⟩, rfl⟩
  by_cases hc : c = chip
  · subst hc
    cases hok : env.malloc s.allocs with
    | false => simp [Sys.shape]
    | true => simp [Sys.shape]
  · simp [Sys.shape, hc]

theorem gicProbe_shape {env : Env} {dev : Device} {maxIt : Nat} {s s' : Sys} {w : List Event}
    {r : Int} (h : Runs (gicProbe env dev maxIt) s w r s')
    (hdev : ¬ (dev.info.resources.length ≠ 2 ∨ dev.info.resourceType ≠ .mem)) :
    s.Constructed .gic maxIt s' ∧ s'.gpio.allocated = s.gpio.allocated := by
  rw [gicProbe, if_neg hdev, modifyGic, runs_modify_bind] at h
  obtain ⟨_, _, s₁, _, h₁, h₂, -⟩ := runs_bind.mp h
  obtain ⟨-, -, rfl⟩ := runs_pure.mp h₂
  have hchip := irqConstructChip_shape h₁
  exact hchip

theorem gicProbe_refused_shape {env : Env} {dev : Device} {maxIt : Nat} {s s' : Sys}
    {w : List Event} {r : Int} (h : Runs (gicProbe env dev maxIt) s w r s')
    (hdev : dev.info.resources.length ≠ 2 ∨ dev.info.resourceType ≠ .mem) : s'.shape = s.shape := by
  rw [gicProbe, if_pos hdev, runs_pure] at h
  rw [h.2.2]

theorem gpcProbe_shape {env : Env} {s s' : Sys} {w : List Event} {r : Int}
    (h : Runs (gpcProbe env) s w r s') :
    s.Constructed .gpc (s.chip .gic).numIrqs s' ∧ s'.gpio.allocated = s.gpio.allocated := by
  rw [gpcProbe, runs_get_bind] at h
  obtain ⟨_, _, s₁, _, h₁, h₂, -⟩ := runs_bind.mp h
  obtain ⟨-, -, rfl⟩ := runs_pure.mp h₂
  exact irqConstructChip_shape h₁

theorem mxcGpioRegister_shape {env : Env} {n : Nat} {dev : Device} {pbase size : Word} {s s' : Sys}
    {w : List Event} {r : Int} (h : Runs (mxcGpioRegister env n dev pbase size) s w r s') :
    s.Constructed (.gpio n) 32 s' ∧ s'.gpio.allocated = s.gpio.allocated := by
  obtain ⟨_, ret, s₁, _, h₁, h, -⟩ := runs_bind.mp h
  cases hcsu : dev.info.csu with
  | nil => simp [hcsu] at h
  | cons c cs =>
    simp only [hcsu] at h
    obtain ⟨_, _, s₂, _, h₂, h, -⟩ := runs_bind.mp h
    obtain ⟨_, _, s₃, _, h₃, h, -⟩ := runs_bind.mp h
    rw [runs_modify_bind, runs_pure] at h
    obtain ⟨-, -, rfl⟩ := h
    obtain ⟨-, hs₁⟩ := emuAddRegion_runs h₁
    obtain ⟨-, -, hs₂, -⟩ := csuSetCsl_runs h₂
    obtain ⟨hshape, hallocated⟩ := irqConstructChip_shape h₃
    rw [hs₂, hs₁] at hshape hallocated
    exact ⟨hshape, hallocated⟩

theorem mxcGpioSetup_shape {env : Env} {n : Nat} {hwtype : HwType} {firstPort : Bool} {port : Port}
    {size : Word} {s s' : Sys} {w : List Event} {r : Int}
    (h : Runs (mxcGpioSetup env n hwtype firstPort port size) s w r s') :
    s.Constructed (.gpio n) 32 s' ∧ s'.gpio.allocated = n + 1 := by
  rw [mxcGpioSetup, runs_modify_bind] at h
  obtain ⟨_, _, s₁, _, h₁, h, -⟩ := runs_bind.mp h
  obtain ⟨_, _, s₂, _, h₂, h, -⟩ := runs_bind.mp h
  have hs₁ := within_runIf (keeps_closed Sys.shape) (gpioAddIrq_shape env port.irq _) h₁
  have hs₂ := within_forEach (keeps_closed Sys.shape)
    (fun desc _ => within_runIf (keeps_closed _) (gpioAddIrq_shape env desc _)) h₂
  obtain ⟨⟨ok, hshape⟩, hallocated⟩ := mxcGpioRegister_shape h
  rw [Keeps] at hs₁ hs₂
  refine ⟨⟨ok, ?_⟩, ?_⟩
  · rw [hshape, hs₂, hs₁]
    rfl
  · have hsame := congrArg Prod.snd (hs₂.trans hs₁)
    exact hallocated.trans hsame

theorem mxcGpioProbe_shape {env : Env} {dev : Device} {hwtype : HwType} {vaddr : Option Word}
    {regs : GpioRegs} {s s' : Sys} {w : List Event} {r : Int}
    (h : Runs (mxcGpioProbe env dev hwtype vaddr regs) s w r s') : s'.shape = s.shape ∨
      s.Constructed (.gpio s.gpio.allocated) 32 s' ∧ s'.gpio.allocated = s.gpio.allocated + 1 := by
  rcases mxcGpioProbe_runs h with hs' | ⟨hw, firstPort, port, size, hsetup⟩
  · left
    rw [hs']
    rfl
  · have hchip := mxcGpioSetup_shape hsetup
    exact Or.inr hchip

/-! ## The list of chips -/

section Chips

variable {m : Machine} {s s' : Dt} {node : Nat} {c : ChipId}

/-- The driver of the controller constructed the chip. -/
def Dt.ChipFor (m : Machine) (s : Dt) (node : Nat) : ChipId → Prop
  | .gic => m.fdt.driver node = some .gic ∧ (s.sys.chip .gic).numIrqs = m.hw.maxIt
  | .gpc => m.fdt.driver node = some .gpc
  | .gpio n => (∃ hwtype, m.fdt.driver node = some (.gpio hwtype)) ∧ n < s.sys.gpio.allocated ∧
      (s.sys.chip (.gpio n)).numIrqs = 32 ∧
        ∃ dev, s.chips.dev (.gpio n) = some dev ∧ dev.info.node = node

theorem Dt.ChipFor.mono (h : s.ChipFor m node c) (hshape : s'.sys.shape.1 c = s.sys.shape.1 c)
    (hallocated : s.sys.gpio.allocated ≤ s'.sys.gpio.allocated)
    (hdev : s'.chips.dev c = s.chips.dev c) : s'.ChipFor m node c := by
  have hsize : (s'.sys.chip c).numIrqs = (s.sys.chip c).numIrqs := congrArg Prod.fst hshape
  cases c with
  | gic => exact ⟨h.1, hsize.trans h.2⟩
  | gpc => exact h
  | gpio n =>
    obtain ⟨hdriver, hn, hlines, dev, hfor, hnode⟩ := h
    exact ⟨hdriver, hn.trans_le hallocated, hsize.trans hlines, dev, hdev.trans hfor, hnode⟩

/-- The interrupt controller was probed before the power controller; the last chip comes first. -/
def gicBeforeGpc : List ChipId → Bool
  | [] => false
  | c :: probed => if c = .gpc then decide (.gic ∈ probed) else gicBeforeGpc probed

/-- The power controller has the interrupts that the interrupt controller had when it was probed. -/
structure Dt.Numbered (m : Machine) (s : Dt) : Prop where
  gic : (s.sys.chip .gic).numIrqs = if .gic ∈ s.chips.probed then m.hw.maxIt else 0
  gpc : (s.sys.chip .gpc).numIrqs = if gicBeforeGpc s.chips.probed then m.hw.maxIt else 0

/-- Every chip in the list belongs to the device that it is listed for. -/
structure Dt.Wired (m : Machine) (s : Dt) : Prop where
  numbered : s.Numbered m
  tables : ∀ n, (s.sys.chip (.gpio n)).handlers.isSome = true → n < s.sys.gpio.allocated
  owned : ∀ c ∈ s.chips.order, ∃ (dev : Device) (node : Nat), dev.info.node = node ∧
    s.chips.dev c = some dev ∧ s.ChipFor m node c

/-- No chip loses its controller. -/
def Dt.Grown (m : Machine) (s s' : Dt) : Prop :=
  ∀ node c, s.ChipFor m node c → s'.ChipFor m node c

theorem Dt.Grown.refl (s : Dt) : s.Grown m s := fun _ _ h => h

theorem Dt.Grown.trans {s'' : Dt} (h : s.Grown m s') (h' : s'.Grown m s'') : s.Grown m s'' :=
  fun node c hc => h' node c (h node c hc)

/-- Only what the chips are made of matters. -/
theorem Dt.grown_of_shape (hshape : s'.sys.shape = s.sys.shape) (hchips : s'.chips = s.chips) :
    s.Grown m s' := by
  intro node c hc
  refine hc.mono ?_ ?_ ?_
  · rw [hshape]
  · exact (congrArg Prod.snd hshape).ge
  · rw [hchips]

theorem numIrqs_of_shape {t t' : Sys} (h : t'.shape.1 c = t.shape.1 c) :
    (t'.chip c).numIrqs = (t.chip c).numIrqs := congrArg Prod.fst h

theorem Dt.Numbered.of_shape (h : s.Numbered m) (hshape : s'.sys.shape = s.sys.shape)
    (hchips : s'.chips = s.chips) : s'.Numbered m := by
  have hlines : ∀ c, (s'.sys.chip c).numIrqs = (s.sys.chip c).numIrqs := fun c =>
    numIrqs_of_shape (by rw [hshape])
  constructor
  · rw [hlines, hchips]
    exact h.gic
  · rw [hlines, hchips]
    exact h.gpc

theorem Dt.Wired.of_shape (h : s.Wired m) (hshape : s'.sys.shape = s.sys.shape)
    (hchips : s'.chips = s.chips) : s'.Wired m := by
  refine ⟨h.numbered.of_shape hshape hchips, fun n hn => ?_, fun c hc => ?_⟩
  · have hallocated : s'.sys.gpio.allocated = s.sys.gpio.allocated := congrArg Prod.snd hshape
    have htable := congrArg (fun x => (x.1 (.gpio n)).2) hshape
    rw [hallocated]
    exact h.tables n (htable.symm.trans hn)
  · rw [hchips] at hc
    obtain ⟨dev, node, hnode, hdev, hfor⟩ := h.owned c hc
    refine ⟨dev, node, hnode, ?_, Dt.grown_of_shape hshape hchips node c hfor⟩
    rw [hchips, hdev]

theorem mem_insertHead {l : ChipList} {c c' : ChipId} (h : c' ∈ (l.insertHead c).order) :
    c' = c ∨ c' ∈ l.order := by
  unfold ChipList.insertHead at h
  split at h
  · rcases List.mem_cons.mp h with rfl | h
    · exact Or.inl rfl
    · exact Or.inr ((List.takeWhile_prefix _).subset h)
  · exact List.mem_cons.mp h

theorem mem_construct {l : ChipList} {dev : Device} {c c' : ChipId} {hasTable : Bool}
    (h : c' ∈ (l.construct dev c hasTable).order) :
    (c' = c ∧ hasTable = true) ∨ c' ∈ l.order := by
  cases hasTable with
  | false => exact Or.inr h
  | true =>
    rcases mem_insertHead h with hc | hc
    · exact Or.inl ⟨hc, rfl⟩
    · exact Or.inr hc

@[simp] theorem construct_dev (l : ChipList) (dev : Device) (c : ChipId) (hasTable : Bool) :
    (l.construct dev c hasTable).dev = Function.update l.dev c (some dev) := by
  cases hasTable with
  | false => rfl
  | true =>
    unfold ChipList.construct ChipList.insertHead
    simp only [if_true]
    split <;> rfl

@[simp] theorem construct_probed (l : ChipList) (dev : Device) (c : ChipId) (hasTable : Bool) :
    (l.construct dev c hasTable).probed = c :: l.probed := by
  cases hasTable with
  | false => rfl
  | true =>
    unfold ChipList.construct ChipList.insertHead
    simp only [if_true]
    split <;> rfl

/-- The state after a driver that constructs the chip `c` for `dev` left the kernel in `t`. -/
def Dt.constructed (s : Dt) (t : Sys) (dev : Device) (c : ChipId) : Dt :=
  { s with sys := t, chips := s.chips.construct dev c (t.chip c).handlers.isSome }

theorem Dt.constructed_grown {t : Sys} {dev : Device}
    (hother : ∀ c', c' ≠ c → t.shape.1 c' = s.sys.shape.1 c')
    (hallocated : s.sys.gpio.allocated ≤ t.gpio.allocated)
    (hself : ∀ node', s.ChipFor m node' c → (s.constructed t dev c).ChipFor m node' c) :
    s.Grown m (s.constructed t dev c) := by
  intro node' c' hfor
  by_cases hc : c' = c
  · subst hc
    exact hself node' hfor
  · refine hfor.mono (hother c' hc) hallocated ?_
    simp [constructed, hc]

/-- The power controller is constructed with what the interrupt controller has. -/
theorem Dt.Numbered.constructed {t : Sys} {dev : Device} (hs : s.Numbered m)
    (hother : ∀ c', c' ≠ c → t.shape.1 c' = s.sys.shape.1 c')
    (hgic : c = .gic → (t.chip .gic).numIrqs = m.hw.maxIt)
    (hgpc : c = .gpc → (t.chip .gpc).numIrqs = (s.sys.chip .gic).numIrqs) :
    (s.constructed t dev c).Numbered m := by
  have hprobed : (s.constructed t dev c).chips.probed = c :: s.chips.probed := construct_probed _ _ _ _
  constructor
  · rw [hprobed]
    change (t.chip .gic).numIrqs = _
    by_cases hc : c = .gic
    · rw [hgic hc, if_pos (hc ▸ List.mem_cons_self)]
    · rw [numIrqs_of_shape (hother .gic (Ne.symm hc)), hs.gic]
      simp [Ne.symm hc]
  · rw [hprobed]
    change (t.chip .gpc).numIrqs = _
    by_cases hc : c = .gpc
    · rw [hgpc hc, hs.gic]
      simp [gicBeforeGpc, hc]
    · rw [numIrqs_of_shape (hother .gpc (Ne.symm hc)), hs.gpc]
      simp [gicBeforeGpc, hc]

theorem Dt.constructed_wired {t : Sys} {dev : Device} (hs : s.Wired m)
    (hnumbered : (s.constructed t dev c).Numbered m)
    (hother : ∀ c', c' ≠ c → t.shape.1 c' = s.sys.shape.1 c')
    (hallocated : s.sys.gpio.allocated ≤ t.gpio.allocated)
    (hself : ∀ node', s.ChipFor m node' c → (s.constructed t dev c).ChipFor m node' c)
    (hnode : dev.info.node = (node : Nat))
    (hfor : (t.chip c).handlers.isSome = true ∨ c ∈ s.chips.order →
      (s.constructed t dev c).ChipFor m node c) : (s.constructed t dev c).Wired m := by
  have hgrown := Dt.constructed_grown hother hallocated hself
  refine ⟨hnumbered, fun n hn => ?_, fun c' hc' => ?_⟩
  · by_cases hc : ChipId.gpio n = c
    · subst hc
      exact (hfor (Or.inl hn)).2.1
    · have htable := congrArg Prod.snd (hother _ hc)
      exact (hs.tables n (htable.symm.trans hn)).trans_le hallocated
  · by_cases hc : c' = c
    · subst hc
      refine ⟨dev, node, hnode, ?_, hfor ?_⟩
      · simp [constructed]
      · rcases mem_construct hc' with ⟨-, htable⟩ | hold
        · exact Or.inl htable
        · exact Or.inr hold
    · rcases mem_construct hc' with ⟨rfl, -⟩ | hold
      · exact absurd rfl hc
      · obtain ⟨dev', node', hnode', hdev', hfor'⟩ := hs.owned c' hold
        refine ⟨dev', node', hnode', ?_, hgrown node' c' hfor'⟩
        simpa [constructed, hc] using hdev'

/-! ## One driver -/

section Drivers

variable {dev : Device} {t : Sys} {w : List Event} {r : Int}

theorem Sys.Constructed.other {size : Nat} {u : Sys} (h : u.Constructed c size t) {b : ChipId}
    (hb : b ≠ c) : t.shape.1 b = u.shape.1 b := by
  obtain ⟨ok, hshape⟩ := h
  rw [hshape, Function.update_of_ne hb]

theorem Sys.Constructed.size {size : Nat} {u : Sys} (h : u.Constructed c size t) :
    (t.chip c).numIrqs = size := by
  obtain ⟨ok, hshape⟩ := h
  have hc := congrFun hshape c
  rw [Function.update_self] at hc
  exact congrArg Prod.fst hc

theorem gicProbe_wired (hs : s.Wired m) (hdriver : m.fdt.driver node = some .gic)
    (hnode : dev.info.node = node) (h : Runs (gicProbe m.env dev m.hw.maxIt) s.sys w r t)
    (hdev : ¬ (dev.info.resources.length ≠ 2 ∨ dev.info.resourceType ≠ .mem)) :
    (s.constructed t dev .gic).Wired m ∧ s.Grown m (s.constructed t dev .gic) := by
  obtain ⟨hchip, hallocated⟩ := gicProbe_shape h hdev
  have hself : ∀ node', s.ChipFor m node' .gic → (s.constructed t dev .gic).ChipFor m node' .gic :=
    fun node' hfor => ⟨hfor.1, hchip.size⟩
  have hnumbered : (s.constructed t dev .gic).Numbered m :=
    hs.numbered.constructed (fun c' => hchip.other) (fun _ => hchip.size) ChipId.noConfusion
  exact ⟨Dt.constructed_wired hs hnumbered (fun c' => hchip.other) hallocated.ge hself hnode
    fun _ => ⟨hdriver, hchip.size⟩, Dt.constructed_grown (fun c' => hchip.other) hallocated.ge hself⟩

theorem gpcProbe_wired (hs : s.Wired m) (hdriver : m.fdt.driver node = some .gpc)
    (hnode : dev.info.node = node) (h : Runs (gpcProbe m.env) s.sys w r t) :
    (s.constructed t dev .gpc).Wired m ∧ s.Grown m (s.constructed t dev .gpc) := by
  obtain ⟨hchip, hallocated⟩ := gpcProbe_shape h
  have hnumbered : (s.constructed t dev .gpc).Numbered m :=
    hs.numbered.constructed (fun c' => hchip.other) ChipId.noConfusion fun _ => hchip.size
  exact ⟨Dt.constructed_wired hs hnumbered (fun c' => hchip.other) hallocated.ge (fun _ hfor => hfor) hnode
    fun _ => hdriver, Dt.constructed_grown (fun c' => hchip.other) hallocated.ge fun _ hfor => hfor⟩

/-- The number of a port that is probed was not used before. -/
theorem mxcGpioProbe_wired {hwtype : HwType} {vaddr : Option Word} {regs : GpioRegs}
    (hs : s.Wired m) (hdriver : m.fdt.driver node = some (.gpio hwtype))
    (hnode : dev.info.node = node)
    (h : Runs (mxcGpioProbe m.env dev hwtype vaddr regs) s.sys w r t) :
    (s.constructed t dev (.gpio s.sys.gpio.allocated)).Wired m ∧
      s.Grown m (s.constructed t dev (.gpio s.sys.gpio.allocated)) := by
  have hself : ∀ node', s.ChipFor m node' (.gpio s.sys.gpio.allocated) →
      (s.constructed t dev (.gpio s.sys.gpio.allocated)).ChipFor m node'
        (.gpio s.sys.gpio.allocated) :=
    fun node' hfor => absurd hfor.2.1 (lt_irrefl _)
  have hunlisted : ChipId.gpio s.sys.gpio.allocated ∉ s.chips.order := by
    intro hlisted
    obtain ⟨_, _, -, -, hfor⟩ := hs.owned _ hlisted
    exact absurd hfor.2.1 (lt_irrefl _)
  rcases mxcGpioProbe_shape h with hshape | ⟨hchip, hallocated⟩
  · have hother : ∀ c' : ChipId, c' ≠ .gpio s.sys.gpio.allocated →
        t.shape.1 c' = s.sys.shape.1 c' := fun c' _ => by rw [hshape]
    have hle : s.sys.gpio.allocated ≤ t.gpio.allocated := (congrArg Prod.snd hshape).ge
    have hnumbered : (s.constructed t dev (.gpio s.sys.gpio.allocated)).Numbered m :=
      hs.numbered.constructed hother ChipId.noConfusion ChipId.noConfusion
    refine ⟨Dt.constructed_wired hs hnumbered hother hle hself hnode ?_,
      Dt.constructed_grown hother hle hself⟩
    rintro (htable | hlisted)
    · have hold := congrArg (fun x => (x.1 (.gpio s.sys.gpio.allocated)).2) hshape
      exact absurd (hs.tables _ (hold.symm.trans htable)) (lt_irrefl _)
    · exact absurd hlisted hunlisted
  · have hlt : s.sys.gpio.allocated < t.gpio.allocated := by
      rw [hallocated]
      exact Nat.lt_succ_self _
    have hnumbered : (s.constructed t dev (.gpio s.sys.gpio.allocated)).Numbered m :=
      hs.numbered.constructed (fun c' => hchip.other) ChipId.noConfusion ChipId.noConfusion
    refine ⟨Dt.constructed_wired hs hnumbered (fun c' => hchip.other) hlt.le hself hnode fun _ => ?_,
      Dt.constructed_grown (fun c' => hchip.other) hlt.le hself⟩
    refine ⟨⟨hwtype, hdriver⟩, hlt, hchip.size, dev, ?_, hnode⟩
    simp [Dt.constructed]

/-- A driver that is called for a device of its own leaves every chip with its controller. -/
theorem dtProbeCompatibleDriver_wired {w : List Event} {u : Unit} (hs : s.Wired m)
    (hnode : dev.info.node = node) (h : Runs (dtProbeCompatibleDriver m node dev) s w u s') :
    s'.Wired m ∧ s.Grown m s' ∧ s'.table = s.table := by
  rw [dtProbeCompatibleDriver] at h
  cases hdriver : m.fdt.driver node with
  | none =>
    simp only [hdriver, runs_pure] at h
    obtain ⟨-, -, rfl⟩ := h
    exact ⟨hs, Dt.Grown.refl _, rfl⟩
  | some driver =>
    simp only [hdriver, runs_get_bind] at h
    obtain ⟨_, r, s₁, _, hsys, h, -⟩ := runs_bind.mp h
    obtain ⟨t, hprobe, rfl⟩ := runs_zoom.mp hsys
    obtain ⟨-, rfl⟩ := runs_modify.mp h
    cases driver with
    | gic =>
      by_cases hdev : dev.info.resources.length ≠ 2 ∨ dev.info.resourceType ≠ .mem
      · have hshape := gicProbe_refused_shape hprobe hdev
        simp only [Driver.chip, if_pos hdev]
        exact ⟨hs.of_shape hshape rfl, Dt.grown_of_shape hshape rfl, trivial⟩
      · simp only [Driver.chip, if_neg hdev]
        obtain ⟨hwired, hgrown⟩ := gicProbe_wired hs hdriver hnode hprobe hdev
        exact ⟨hwired, hgrown, trivial⟩
    | gpc =>
      obtain ⟨hwired, hgrown⟩ := gpcProbe_wired hs hdriver hnode hprobe
      exact ⟨hwired, hgrown, rfl⟩
    | fb =>
      have hshape : t.shape = s.sys.shape := fbProbe_shape _ _ _ _ hprobe
      exact ⟨hs.of_shape hshape rfl, Dt.grown_of_shape hshape rfl, rfl⟩
    | gpio hwtype =>
      obtain ⟨hwired, hgrown⟩ := mxcGpioProbe_wired hs hdriver hnode hprobe
      exact ⟨hwired, hgrown, rfl⟩
    | keys =>
      have hshape : t.shape = s.sys.shape := gpioKeysProbe_shape _ _ hprobe
      exact ⟨hs.of_shape hshape rfl, Dt.grown_of_shape hshape rfl, rfl⟩

end Drivers

end Chips

end SeCloak
