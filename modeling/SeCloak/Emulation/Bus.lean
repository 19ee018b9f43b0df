import SeCloak.Drivers.Fb
import SeCloak.Drivers.Gpio

/-!
# Physical memory as the emulator sees it

The emulator performs accesses of one, two or four bytes at physical addresses that come from the
non-secure world. A byte address belongs to a register of the CSU, of the interrupt distributor,
of a GPIO port or of the CPMEM of the display, or it is plain memory; a store goes to the byte
lane of the register. Everything the emulator can change through the bus is hardware state:
`BusOnly` says so once for all writes.
-/

namespace SeCloak
open Misc

/-- `CSU_BASE` (`imx6-regs.h:85`). -/
def csuBase : Word := 0x021C0000

/-- `TZC380_BASE` (`imx6-regs.h:46`). -/
def tzc380Base : Word := 0x021D0000

/-- The register blocks of the interrupt distributor that the model has. -/
inductive GicBank where
  | igroupr | isenabler | icenabler | ispendr | icpendr
  deriving DecidableEq

/-- Where a physical byte address leads. -/
inductive Place where
  | csl (n lane : Nat)
  | sa (lane : Nat)
  | gicd (bank : GicBank) (n lane : Nat)
  | ipriorityr (it : Nat)
  | itargetsr (n lane : Nat)
  | gpio (port : Nat) (reg : Word) (lane : Nat)
  | cpmem (i lane : Nat)
  | plain
  deriving DecidableEq

/-- The distributor behind an offset from its base. -/
def gicdPlace (o : Nat) : Option Place :=
  let lanes (start : Nat) (bank : GicBank) := Place.gicd bank ((o - start) / 4) (o % 4)
  if 0x080 ≤ o ∧ o < 0x100 then some (lanes 0x080 .igroupr)
  else if 0x100 ≤ o ∧ o < 0x180 then some (lanes 0x100 .isenabler)
  else if 0x180 ≤ o ∧ o < 0x200 then some (lanes 0x180 .icenabler)
  else if 0x200 ≤ o ∧ o < 0x280 then some (lanes 0x200 .ispendr)
  else if 0x280 ≤ o ∧ o < 0x300 then some (lanes 0x280 .icpendr)
  else if 0x400 ≤ o ∧ o < 0x800 then some (.ipriorityr (o - 0x400))
  else if 0x800 ≤ o ∧ o < 0xC00 then some (.itargetsr ((o - 0x800) / 4) (o % 4))
  else none

/-- The port whose registers hold an address. -/
def gpioPlace (g : Gpio) (pa : Word) : Option Place :=
  g.ports.findSome? fun n =>
    match g.port n with
    | none => none
    | some p =>
      let o := (pa - p.pbase).toNat
      if o < 0x40 then some (.gpio n (BitVec.ofNat 32 (o / 4 * 4)) (o % 4)) else none

/-- The place of a physical byte address. -/
def Sys.place (env : Env) (s : Sys) (pa : Word) : Place :=
  let o := (pa - csuBase).toNat
  let c := (pa - (s.fb.basePaddr + ipuCpmemOffset)).toNat
  if o < 0xA0 then .csl (o / 4) (o % 4)
  else if 0x218 ≤ o ∧ o < 0x21C then .sa (o % 4)
  else
    match gicdPlace (pa - env.gicd).toNat, gpioPlace s.gpio pa with
    | some p, _ => p
    | none, some p => p
    | none, none =>
      -- 80 channels of 16 words
      if s.fb.cpmemVaddr.isSome ∧ c < 0x1400 then .cpmem (c / 4) (c % 4) else .plain

/-! ## Bytes -/

def getLane (w : Word) (lane : Nat) : Byte := w.extractLsb' (8 * lane) 8

def laneBits (lane : Nat) (b : Byte) : Word := b.setWidth 32 <<< (8 * lane)

def setLane (w : Word) (lane : Nat) (b : Byte) : Word :=
  maskWrite w (laneBits lane 0xFF) (laneBits lane b)

/-- The register of a port at a word offset; unknown offsets read as zero. -/
def GpioRegs.read (hw : HwData) (r : GpioRegs) (o : Word) : Word :=
  if o = hw.drReg then r.dr
  else if o = hw.gdirReg then r.gdir
  else if o = hw.psrReg then r.psr
  else if o = hw.icr1Reg then r.icr1
  else if o = hw.icr2Reg then r.icr2
  else if o = hw.imrReg then r.imr
  else if o = hw.isrReg then r.isr
  else if o = BitVec.ofInt 32 hw.edgeSelReg then r.edgeSel
  else 0

/-- Store a byte to a register of a port: `PSR` is read-only, `ISR` is write-one-to-clear. -/
def GpioRegs.storeByte (hw : HwData) (r : GpioRegs) (o : Word) (lane : Nat) (b : Byte) : GpioRegs :=
  if o = hw.drReg then { r with dr := setLane r.dr lane b }
  else if o = hw.gdirReg then { r with gdir := setLane r.gdir lane b }
  else if o = hw.psrReg then r
  else if o = hw.icr1Reg then { r with icr1 := setLane r.icr1 lane b }
  else if o = hw.icr2Reg then { r with icr2 := setLane r.icr2 lane b }
  else if o = hw.imrReg then { r with imr := setLane r.imr lane b }
  else if o = hw.isrReg then { r with isr := r.isr &&& ~~~laneBits lane b }
  else if o = BitVec.ofInt 32 hw.edgeSelReg then { r with edgeSel := setLane r.edgeSel lane b }
  else r

def Gic.readBank (g : Gic) : GicBank → Nat → Word
  | .igroupr => g.igroupr
  | .isenabler | .icenabler => g.isenabler
  | .ispendr | .icpendr => g.ispendr

def Gic.storeByte (g : Gic) (bank : GicBank) (n lane : Nat) (b : Byte) : Gic :=
  match bank with
  | .igroupr => g.writeIgroupr n (setLane (g.igroupr n) lane b)
  | .isenabler => g.writeIsenabler n (laneBits lane b)
  | .icenabler => g.writeIcenabler n (laneBits lane b)
  | .ispendr => g.writeIspendr n (laneBits lane b)
  | .icpendr => g.writeIcpendr n (laneBits lane b)

/-- Read a byte. -/
def Sys.readByte (env : Env) (s : Sys) (pa : Word) : Byte :=
  match s.place env pa with
  | .csl n lane => getLane (s.csu.csl n) lane
  | .sa lane => getLane s.csu.sa lane
  | .gicd bank n lane => getLane (s.gic.readBank bank n) lane
  | .ipriorityr it => s.gic.ipriorityr it
  | .itargetsr n lane => getLane (s.gic.itargetsr n) lane
  | .gpio n reg lane =>
    match s.gpio.hwtype, s.gpio.port n with
    | some ty, some p => getLane (p.regs.read (hwData ty) reg) lane
    | _, _ => 0
  | .cpmem i lane => getLane (s.fb.cpmem i) lane
  | .plain => s.mem pa

/-- Store a byte to a register of the `n`-th port. -/
def Sys.writeGpio (s : Sys) (n : Nat) (reg : Word) (lane : Nat) (b : Byte) : Sys :=
  match s.gpio.hwtype, s.gpio.port n with
  | some ty, some p =>
    let q : Port := { p with regs := p.regs.storeByte (hwData ty) reg lane b }
    { s with gpio := { s.gpio with port := Function.update s.gpio.port n (some q) } }
  | _, _ => s

/-- Store a byte. -/
def Sys.writeByte (env : Env) (s : Sys) (pa : Word) (b : Byte) : Sys :=
  match s.place env pa with
  | .csl n lane =>
    { s with csu := { s.csu with csl := Function.update s.csu.csl n (setLane (s.csu.csl n) lane b) } }
  | .sa lane => { s with csu := { s.csu with sa := setLane s.csu.sa lane b } }
  | .gicd bank n lane => { s with gic := s.gic.storeByte bank n lane b }
  | .ipriorityr it => { s with gic := s.gic.itSetPrio it b }
  | .itargetsr n lane =>
    { s with gic := { s.gic with
        itargetsr := Function.update s.gic.itargetsr n (setLane (s.gic.itargetsr n) lane b) } }
  | .gpio n reg lane => s.writeGpio n reg lane b
  | .cpmem i lane =>
    { s with fb := { s.fb with
        cpmem := Function.update s.fb.cpmem i (setLane (s.fb.cpmem i) lane b) } }
  | .plain => { s with mem := Function.update s.mem pa b }

/-! ## Accesses -/

/-- The `i`-th byte address of an access. -/
def Access.byte (a : Access) (i : Nat) : Word := a.pa + BitVec.ofNat 32 i

/-- `read8`, `read16` and `read32`: the bytes of the access, lowest first. -/
def Sys.load (env : Env) (s : Sys) (a : Access) : Word :=
  (List.range a.size).foldl (fun v i => v ||| laneBits i (s.readByte env (a.byte i))) 0

/-- `write8`, `write16` and `write32`. -/
def Sys.store (env : Env) (s : Sys) (a : Access) (value : Word) : Sys :=
  (List.range a.size).foldl (fun s i => s.writeByte env (a.byte i) (getLane value i)) s

/-- `read` (`emulation.c:72-83`). -/
def memRead (env : Env) (a : Access) : Kernel Word := do
  Code.emit fun _ => .read a
  let s ← Code.get
  pure (s.load env a)

/-- `write` (`emulation.c:85-99`). -/
def memWrite (env : Env) (a : Access) (value : Word) : Kernel Unit := do
  Code.emit fun _ => .write a value
  Code.modify fun s => s.store env a value

/-- The instruction word (`emulation.c:146`). -/
def memFetch (env : Env) (a : Access) : Kernel Word := do
  Code.emit fun _ => .fetch a
  let s ← Code.get
  pure (s.load env a)

/-- Some byte of the access is in `P`. -/
def Access.hits (a : Access) (P : Word → Prop) : Prop := ∃ i < a.size, P (a.byte i)

instance (a : Access) (P : Word → Prop) [DecidablePred P] : Decidable (a.hits P) :=
  inferInstanceAs (Decidable (∃ i < a.size, P (a.byte i)))

/-- The registers of the CSU that `imx_csu.c` writes. -/
def CsuByte (pa : Word) : Prop :=
  (pa - csuBase).toNat < 0xA0 ∨ (0x218 ≤ (pa - csuBase).toNat ∧ (pa - csuBase).toNat < 0x21C)

instance : DecidablePred CsuByte := fun _ => inferInstanceAs (Decidable (_ ∨ _))

/-! ## Frame -/

/-- What a store on the bus may change: registers and plain memory. -/
structure BusOnly (s s' : Sys) : Prop where
  rest : s' = { s with
    csu := { s.csu with csl := s'.csu.csl, sa := s'.csu.sa }, gic := s'.gic
    gpio := { s.gpio with port := s'.gpio.port }, fb := { s.fb with cpmem := s'.fb.cpmem }
    mem := s'.mem }
  fixed : ∀ n, (s'.gpio.port n).map Port.fixed = (s.gpio.port n).map Port.fixed

theorem BusOnly.refl (s : Sys) : BusOnly s s := ⟨rfl, fun _ => rfl⟩

theorem BusOnly.trans {s s' s'' : Sys} (h : BusOnly s s') (h' : BusOnly s' s'') :
    BusOnly s s'' := by
  refine ⟨?_, fun n => (h'.fixed n).trans (h.fixed n)⟩
  rw [h'.rest, h.rest]

theorem busOnly_port {s : Sys} {n : Nat} {p q : Port} (hp : s.gpio.port n = some p)
    (hq : q.fixed = p.fixed) :
    BusOnly s { s with gpio := { s.gpio with port := Function.update s.gpio.port n (some q) } } :=
  ⟨rfl, (linesOnly_port s hp hq).fixed⟩

theorem writeGpio_busOnly (s : Sys) (n : Nat) (reg : Word) (lane : Nat) (b : Byte) :
    BusOnly s (s.writeGpio n reg lane b) := by
  unfold Sys.writeGpio
  split
  · rename_i hp
    exact busOnly_port hp rfl
  · exact BusOnly.refl s

theorem writeByte_busOnly (env : Env) (s : Sys) (pa : Word) (b : Byte) :
    BusOnly s (s.writeByte env pa b) := by
  unfold Sys.writeByte
  cases s.place env pa with
  | gpio n reg lane => exact writeGpio_busOnly s n reg lane b
  | csl n lane => exact ⟨rfl, fun _ => rfl⟩
  | sa lane => exact ⟨rfl, fun _ => rfl⟩
  | gicd bank n lane => exact ⟨rfl, fun _ => rfl⟩
  | ipriorityr it => exact ⟨rfl, fun _ => rfl⟩
  | itargetsr n lane => exact ⟨rfl, fun _ => rfl⟩
  | cpmem i lane => exact ⟨rfl, fun _ => rfl⟩
  | plain => exact ⟨rfl, fun _ => rfl⟩

/-- Not a register of the CSU. -/
def Place.elsewhere : Place → Prop
  | .csl _ _ | .sa _ => False
  | _ => True

theorem gicdPlace_elsewhere {o : Nat} {p : Place} (h : gicdPlace o = some p) : p.elsewhere := by
  unfold gicdPlace at h
  split_ifs at h <;> cases h <;> trivial

theorem gpioPlace_elsewhere {g : Gpio} {pa : Word} {p : Place} (h : gpioPlace g pa = some p) :
    p.elsewhere := by
  obtain ⟨n, -, hn⟩ := List.exists_of_findSome?_eq_some h
  split at hn
  · cases hn
  · dsimp only at hn
    split_ifs at hn
    cases hn
    trivial

theorem place_elsewhere {env : Env} {s : Sys} {pa : Word} (h : ¬ CsuByte pa) :
    (s.place env pa).elsewhere := by
  obtain ⟨hcsl, hsa⟩ := not_or.mp h
  unfold Sys.place
  dsimp only
  rw [if_neg hcsl, if_neg hsa]
  cases hgic : gicdPlace (pa - env.gicd).toNat with
  | some p => exact gicdPlace_elsewhere hgic
  | none =>
    cases hgpio : gpioPlace s.gpio pa with
    | some p => exact gpioPlace_elsewhere hgpio
    | none =>
      dsimp only
      by_cases hc : s.fb.cpmemVaddr.isSome ∧ (pa - (s.fb.basePaddr + ipuCpmemOffset)).toNat < 0x1400
      · rw [if_pos hc]
        trivial
      · rw [if_neg hc]
        trivial

theorem writeByte_csu {env : Env} {s : Sys} {pa : Word} {b : Byte} (h : ¬ CsuByte pa) :
    (s.writeByte env pa b).csu = s.csu := by
  have hplace : (s.place env pa).elsewhere := place_elsewhere h
  unfold Sys.writeByte
  generalize s.place env pa = p at hplace
  cases p with
  | csl n lane => exact absurd hplace id
  | sa lane => exact absurd hplace id
  | gpio n reg lane =>
    unfold Sys.writeGpio
    dsimp only
    split <;> rfl
  | gicd bank n lane => rfl
  | ipriorityr it => rfl
  | itargetsr n lane => rfl
  | cpmem i lane => rfl
  | plain => rfl

/-- What every byte of a store preserves. -/
theorem store_invariant {I : Sys → Prop} {env : Env} {a : Access} {value : Word}
    (hbyte : ∀ i < a.size, ∀ s, I s → I (s.writeByte env (a.byte i) (getLane value i))) {s : Sys}
    (hs : I s) : I (s.store env a value) := by
  have hall : ∀ i ∈ List.range a.size, i < a.size := fun i hi => List.mem_range.mp hi
  unfold Sys.store
  generalize List.range a.size = is at hall
  induction is generalizing s with
  | nil => exact hs
  | cons i is ih =>
    rw [List.foldl_cons]
    apply ih
    · exact hbyte i (hall i List.mem_cons_self) s hs
    · intro j hj
      exact hall j (List.mem_cons_of_mem _ hj)

theorem store_csu {env : Env} {s : Sys} {a : Access} {value : Word} (h : ¬ a.hits CsuByte) :
    (s.store env a value).csu = s.csu := by
  refine store_invariant (I := fun t => t.csu = s.csu) (fun i hi t ht => ?_) rfl
  rw [writeByte_csu fun hb => h ⟨i, hi, hb⟩]
  exact ht

theorem store_busOnly (env : Env) (s : Sys) (a : Access) (value : Word) :
    BusOnly s (s.store env a value) := by
  refine store_invariant (I := fun t => BusOnly s t) (fun i _ t ht => ?_) (BusOnly.refl s)
  exact ht.trans (writeByte_busOnly env t _ _)

end SeCloak
