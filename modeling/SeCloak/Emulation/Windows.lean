import SeCloak.Emulation.Adjacent
import SeCloak.Emulation.Effects

/-!
# The windows of the emulator (`emulation.c:17-22`)

The emulator reaches the memory of the non-secure world through two windows, one for data and one
for instructions. It checks that the first byte of an access is in its window;
`emu_inside_iff` says when all bytes are.
-/

namespace SeCloak
open Misc

/-! ## Windows -/

/-- The window does not wrap the address space, neither physically nor virtually. -/
def Window.Whole (w : Window) : Prop :=
  w.pstart.toNat + w.size.toNat ≤ 2 ^ 32 ∧ w.vstart.toNat + w.size.toNat ≤ 2 ^ 32

/-- The `n` bytes from a physical address on end inside the window. -/
def Window.Holds (w : Window) (pa : Word) (n : Nat) : Prop :=
  pa.toNat + n ≤ w.pstart.toNat + w.size.toNat

/-- Every byte of the access lies in `[vstart, vstart + size)`. -/
def Access.Inside (a : Access) (w : Window) : Prop :=
  ∀ i < a.size, w.vstart.toNat ≤ a.va.toNat + i ∧ a.va.toNat + i < w.vstart.toNat + w.size.toNat

/-- An access to memory stays in the window for its kind. -/
def Event.Inside (env : Env) : Event → Prop
  | .fetch a => a.Inside env.instr
  | .read a | .write a _ => a.Inside env.data
  | .prot _ | .blit .. | .pixel _ => True

theorem Window.Whole.contains {w : Window} (hw : w.Whole) {pa : Word} (h : w.contains pa) :
    w.pstart.toNat ≤ pa.toNat ∧ pa.toNat < w.pstart.toNat + w.size.toNat := by
  obtain ⟨hlo, hhi⟩ := h
  obtain ⟨hwrap, -⟩ := hw
  have hlo' : w.pstart.toNat ≤ pa.toNat := hlo
  have hhi' : pa.toNat < (w.pstart + w.size).toNat := hhi
  rw [BitVec.toNat_add] at hhi'
  refine ⟨hlo', ?_⟩
  -- a window that ends with the address space contains nothing
  rcases Nat.lt_or_ge (w.pstart.toNat + w.size.toNat) (2 ^ 32) with hlt | hge
  · rwa [Nat.mod_eq_of_lt hlt] at hhi'
  · have heq : w.pstart.toNat + w.size.toNat = 2 ^ 32 := Nat.le_antisymm hwrap hge
    rw [heq, Nat.mod_self] at hhi'
    exact absurd hhi' (Nat.not_lt_zero _)

/-- An access that starts in the window is inside it if its last byte is. -/
theorem Window.Whole.access_inside {w : Window} (hw : w.Whole) {pa : Word} (h : w.contains pa)
    (n : Nat) : (w.access pa n).Inside w ↔ w.Holds pa n := by
  obtain ⟨hlo, hhi⟩ := hw.contains h
  have hva : (w.vstart + (pa - w.pstart)).toNat = w.vstart.toNat + (pa.toNat - w.pstart.toNat) := by
    have hoff : (pa - w.pstart).toNat = pa.toNat - w.pstart.toNat := by bv_omega
    have hwrap := hw.2
    rw [BitVec.toNat_add, hoff, Nat.mod_eq_of_lt]
    omega
  unfold Access.Inside Window.Holds Window.access
  rw [hva]
  constructor
  · intro hin
    cases n with
    | zero => omega
    | succ n =>
      have hlast := (hin n (Nat.lt_succ_self n)).2
      omega
  · intro hend i hi
    have hlt : i < n := hi
    omega

/-! ## Events -/

/-- The state that `emu_check` is asked in before the access. -/
def EmuOp.state : EmuOp → EmuState
  | .load .. => .readBefore
  | .store .. => .write

/-- The first call of `emu_check` for an operation (`emulation.c:102` and `emulation.c:122`). -/
def emuAsk (op : EmuOp) (pa reg : Word) : Kernel (Bool × Word) :=
  match op with
  | .load .. => emuCheck pa .readBefore 0
  | .store .. => emuCheck pa .write reg

/-- `emu_check` allows the operation. -/
def emuAllows (s : Sys) (op : EmuOp) (pa reg : Word) : Prop :=
  ((emuAsk op pa reg).out s).map (·.1.1) = some true

instance (s : Sys) (op : EmuOp) (pa reg : Word) : Decidable (emuAllows s op pa reg) :=
  inferInstanceAs (Decidable (_ = _))

/-- The access of an operation, as it is logged. -/
def EmuOp.event (env : Env) (op : EmuOp) (pa reg : Word) : Event :=
  match op with
  | .load size _ => .read (env.data.access pa size)
  | .store size => .write (env.data.access pa size) reg

/-- The check of a load leaves nothing in the log, whether it stops or not. -/
theorem gpioEmuCheck_silent {r : Region} {address value : Word} {state : EmuState}
    (hstate : state ≠ .write) : Code.Emits (fun _ => False) (gpioEmuCheck r address state value) := by
  refine Code.emits_bind Code.emits_get fun s => ?_
  cases s.gpio.hwtype with
  | none => exact Code.emits_throw _
  | some ty =>
    cases hfind : gpioPortFromAddress s.gpio r.base with
    | none =>
      exact Code.emits_bind (Code.emits_require _) fun _ => Code.emits_pure _
    | some np =>
      have hnack : (np.2.emuCheck (hwData ty) (address - r.base) state value).ack ≠ true :=
        fun hack => hstate (emuCheck_ack hack)
      dsimp only
      rw [Code.runIf, if_neg hnack]
      exact Code.emits_bind (Code.emits_pure _) fun _ => Code.emits_pure _

theorem emuCheckFrom_silent {address : Word} {state : EmuState} (hstate : state ≠ .write)
    (rs : List Region) (value : Word) :
    Code.Emits (fun _ => False) (emuCheckFrom address state rs value) := by
  induction rs generalizing value with
  | nil => exact Code.emits_pure _
  | cons r rs ih =>
    refine Code.emits_ite (Code.emits_bind ?_ fun x => ?_) (ih value)
    · unfold Region.runCheck
      cases r.check with
      | gpio => exact gpioEmuCheck_silent hstate
      | allowAll | denyAll | fb => exact Code.emits_pure _
    · exact Code.emits_bind (ih x.2) fun _ => Code.emits_pure _

theorem emuCheck_silent {address value : Word} {state : EmuState} (hstate : state ≠ .write)
    (s : Sys) (e : Event) : e ∉ (emuCheck address state value s).events := by
  intro he
  have hemits : Code.Emits (fun _ => False) (emuCheck address state value) :=
    Code.emits_bind Code.emits_get fun s => emuCheckFrom_silent hstate s.regions value
  exact hemits s e he

theorem emuAllows_iff {s : Sys} {op : EmuOp} {pa reg : Word} : emuAllows s op pa reg ↔
    ∃ w v s', Code.Runs (emuAsk op pa reg) s w (true, v) s' := by
  constructor
  · intro h
    obtain ⟨w, ⟨ok, v⟩, s', hr, rfl⟩ := Code.runs_of_out h
    exact ⟨w, v, s', hr⟩
  · rintro ⟨w, v, s', hr⟩
    rw [emuAllows, Code.out_eq_some.mpr ⟨w, hr⟩]
    rfl

theorem mem_memRead {env : Env} {a : Access} {s : Sys} {e : Event} :
    e ∈ (memRead env a s).events ↔ e = .read a := by
  rw [memRead, Code.events_bind_of_runs ((Code.runs_emit (u := ())).mpr ⟨rfl, rfl⟩)]
  exact List.mem_singleton

theorem mem_memFetch {env : Env} {a : Access} {s : Sys} {e : Event} :
    e ∈ (memFetch env a s).events ↔ e = .fetch a := by
  rw [memFetch, Code.events_bind_of_runs ((Code.runs_emit (u := ())).mpr ⟨rfl, rfl⟩)]
  exact List.mem_singleton

theorem mem_memWrite {env : Env} {a : Access} {value : Word} {s : Sys} {e : Event} :
    e ∈ (memWrite env a value s).events ↔ e = .write a value := by
  rw [memWrite, Code.events_bind_of_runs ((Code.runs_emit (u := ())).mpr ⟨rfl, rfl⟩)]
  exact List.mem_singleton

/-- An operation logs what its check logs, and its access if the check allows it. -/
theorem mem_emuExecute {env : Env} {op : EmuOp} {pa reg : Word} {s : Sys} {e : Event} :
    e ∈ (emuExecute env op pa reg s).events ↔
      e ∈ (emuAsk op pa reg s).events ∨ (emuAllows s op pa reg ∧ e = op.event env pa reg) := by
  rw [emuAllows_iff]
  cases op with
  | load size sign =>
    change e ∈ (emuHandleLoad env _ sign s).events ↔ _
    rw [emuHandleLoad, Code.mem_events_bind]
    refine or_congr Iff.rfl ⟨?_, ?_⟩
    · rintro ⟨w, ⟨ok, v⟩, s', hr, he⟩
      cases ok with
      | false => cases he
      | true =>
        refine ⟨⟨w, v, s', hr⟩, ?_⟩
        dsimp only at he
        rw [if_pos rfl, Code.mem_events_bind] at he
        rcases he with he | ⟨_, value, s₁, -, he⟩
        · exact mem_memRead.mp he
        · rcases Code.mem_events_bind.mp he with he | ⟨_, x, s₂, -, he⟩
          · exact absurd he (emuCheck_silent (by decide) s₁ e)
          · cases he
    · rintro ⟨⟨w, v, s', hr⟩, rfl⟩
      refine ⟨w, (true, v), s', hr, ?_⟩
      dsimp only
      rw [if_pos rfl, Code.mem_events_bind]
      exact Or.inl (mem_memRead.mpr rfl)
  | store size =>
    change e ∈ (emuHandleStore env _ reg s).events ↔ _
    rw [emuHandleStore, Code.mem_events_bind]
    refine or_congr Iff.rfl ⟨?_, ?_⟩
    · rintro ⟨w, ⟨ok, v⟩, s', hr, he⟩
      obtain rfl : v = reg := by
        have hask := hr
        rw [emuCheck, Code.runs_get_bind] at hask
        exact (emuCheckFrom_write hask).1
      cases ok with
      | false =>
        rcases Code.mem_events_bind.mp he with he | ⟨_, x, s₁, -, he⟩
        · cases he
        · cases he
      | true =>
        refine ⟨⟨w, v, s', hr⟩, ?_⟩
        rcases Code.mem_events_bind.mp he with he | ⟨_, x, s₁, -, he⟩
        · exact mem_memWrite.mp he
        · cases he
    · rintro ⟨⟨w, v, s', hr⟩, rfl⟩
      refine ⟨w, (true, v), s', hr, ?_⟩
      have hask := hr
      rw [emuAsk, emuCheck, Code.runs_get_bind] at hask
      obtain rfl := (emuCheckFrom_write hask).1
      rw [Code.mem_events_bind]
      exact Or.inl (mem_memWrite.mpr rfl)

/-- The range checks of `emu_handle` pass. -/
def InRange (env : Env) (status pa ia : Word) : Prop :=
  status &&& 0x40F = 0x008 ∧ env.data.contains pa ∧ env.instr.contains ia

instance (env : Env) (status pa ia : Word) : Decidable (InRange env status pa ia) :=
  inferInstanceAs (Decidable (_ ∧ _))

/-- `emu_handle` logs the fetch of the instruction, and what the operation logs. -/
theorem mem_emuHandle {env : Env} {ctx : NsecCtx} {status pa ia : Word} {s : Sys} {e : Event} :
    e ∈ (emuHandle env ctx status pa ia s).events ↔ InRange env status pa ia ∧
      (e = .fetch (env.instr.access ia 4) ∨ ∃ rt op, emuAccepts env s status pa ia = some (rt, op) ∧
        e ∈ (emuExecute env op pa (ctx.get rt) s).events) := by
  unfold emuHandle InRange
  by_cases hst : status &&& 0x40F = 0x008
  swap
  · rw [if_pos hst]
    exact ⟨fun he => (by cases he), fun h => absurd h.1.1 hst⟩
  rw [if_neg (not_not.mpr hst)]
  by_cases hd : env.data.contains pa
  swap
  · rw [if_pos hd]
    exact ⟨fun he => (by cases he), fun h => absurd h.1.2.1 hd⟩
  rw [if_neg (not_not.mpr hd)]
  by_cases hi : env.instr.contains ia
  swap
  · rw [if_pos hi]
    exact ⟨fun he => (by cases he), fun h => absurd h.1.2.2 hi⟩
  rw [if_neg (not_not.mpr hi), Code.mem_events_bind, mem_memFetch, emuAccepts, if_pos ⟨hst, hd, hi⟩]
  simp only [hst, hd, hi, and_self, true_and]
  refine or_congr Iff.rfl ?_
  have hfetch : ∀ w instr s', Code.Runs (memFetch env (env.instr.access ia 4)) s w instr s' →
      instr = s.load env (env.instr.access ia 4) ∧ s' = s := by
    intro w instr s' hr
    rw [memFetch, Code.runs_emit_bind] at hr
    obtain ⟨_, hr, -⟩ := hr
    rw [Code.runs_get_bind, Code.runs_pure] at hr
    exact hr.2
  have hruns : Code.Runs (memFetch env (env.instr.access ia 4)) s [.fetch (env.instr.access ia 4)]
      (s.load env (env.instr.access ia 4)) s := rfl
  constructor
  · rintro ⟨w, instr, s', hr, he⟩
    obtain ⟨rfl, rfl⟩ := hfetch w instr s' hr
    cases hrt : emuRt (s'.load env (env.instr.access ia 4)) with
    | none =>
      simp only [hrt] at he
      cases he
    | some rt =>
      cases hop : emuDecode (s'.load env (env.instr.access ia 4)) with
      | none =>
        simp only [hrt, hop] at he
        cases he
      | some op =>
        simp only [hrt, hop] at he
        refine ⟨rt, op, rfl, ?_⟩
        rcases Code.mem_events_bind.mp he with he | ⟨_, x, s₁, -, he⟩
        · exact he
        · cases he
  · rintro ⟨rt, op, hacc, he⟩
    refine ⟨_, _, s, hruns, ?_⟩
    cases hrt : emuRt (s.load env (env.instr.access ia 4)) with
    | none =>
      simp only [hrt] at hacc
      cases hacc
    | some rt' =>
      cases hop : emuDecode (s.load env (env.instr.access ia 4)) with
      | none =>
        simp only [hrt, hop] at hacc
        cases hacc
      | some op' =>
        simp only [hrt, hop] at hacc ⊢
        obtain ⟨rfl, rfl⟩ := Prod.mk.inj (Option.some.inj hacc)
        exact Code.mem_events_bind.mpr (Or.inl he)

/-! ## Acknowledgements -/

/-- The four bytes of the register `IMR` of a port lie in the window. -/
def Port.ImrIn (p : Port) (hw : HwData) (w : Window) : Prop :=
  w.vstart.toNat ≤ (p.base + hw.imrReg).toNat ∧
    (p.base + hw.imrReg).toNat + 4 ≤ w.vstart.toNat + w.size.toNat

/-- The port of a region has `IMR` in the window. -/
def Region.ImrIn (r : Region) (s : Sys) (w : Window) : Prop :=
  ∀ ty n p, s.gpio.hwtype = some ty → gpioPortFromAddress s.gpio r.base = some (n, p) →
    p.ImrIn (hwData ty) w

/-- The regions are asked in order, up to one whose check stops. Those that take the store as an
acknowledgement belong to ports with `IMR` in the window for data. -/
def AcksInside (env : Env) (s : Sys) (rs : List Region) (address value : Word) : Prop :=
  ∀ front r back, rs = front ++ r :: back →
    (∀ q ∈ front, q.covers address → q.AnswersIn s address .write) →
    r.covers address → r.TakesAck s address value → r.ImrIn s env.data

theorem imrIn_iff {r : Region} {s : Sys} {w : Window} :
    r.ImrIn s w ↔ (r.ackAccess s).Inside w := by
  unfold Region.ImrIn Region.ackAccess
  cases hty : s.gpio.hwtype with
  | none => simp [Access.Inside]
  | some ty =>
    cases hport : gpioPortFromAddress s.gpio r.base with
    | none => simp [Access.Inside]
    | some np =>
      obtain ⟨n, p⟩ := np
      simp only [Port.ImrIn, Access.Inside]
      constructor
      · intro h i hi
        obtain ⟨hlo, hhi⟩ := h ty n p rfl rfl
        omega
      · intro h ty' n' p' hty' hport'
        obtain rfl := Option.some.inj hty'
        obtain ⟨rfl, rfl⟩ := Prod.mk.inj (Option.some.inj hport')
        have hfirst := (h 0 (by decide)).1
        have hlast := (h 3 (by decide)).2
        omega

theorem acksInside_nil {env : Env} {s : Sys} {address value : Word} :
    AcksInside env s [] address value := by
  intro front r back hrs
  simp at hrs

theorem acksInside_cons {env : Env} {s : Sys} {r : Region} {rs : List Region}
    {address value : Word} : AcksInside env s (r :: rs) address value ↔
      (r.covers address → r.TakesAck s address value → r.ImrIn s env.data) ∧
        ((r.covers address → r.AnswersIn s address .write) → AcksInside env s rs address value) := by
  constructor
  · intro h
    refine ⟨h [] r rs rfl (fun q hq => by cases hq), fun hr front q back hrs hfront => ?_⟩
    exact h (r :: front) q back (by rw [hrs, List.cons_append])
      (List.forall_mem_cons.mpr ⟨hr, hfront⟩)
  · rintro ⟨hr, hrs⟩ front q back heq hfront
    cases front with
    | nil =>
      obtain ⟨rfl, rfl⟩ := List.cons.inj heq
      exact hr
    | cons x front =>
      obtain ⟨rfl, rfl⟩ := List.cons.inj heq
      obtain ⟨hx, hfront⟩ := List.forall_mem_cons.mp hfront
      exact hrs hx front q back rfl hfront

theorem Region.TakesAck.answersIn {r : Region} {s : Sys} {address value : Word}
    (h : r.TakesAck s address value) : r.AnswersIn s address .write := by
  obtain ⟨-, ty, n, p, hty, hport, -⟩ := h
  exact fun _ => ⟨ty, hty, .inl (by rw [hport]; rfl)⟩

/-- After an acknowledgement of a port with `IMR` in the window the same has to hold of the other ports. -/
theorem acksInside_ackedBy {env : Env} {s : Sys} {r : Region} {rs : List Region}
    {address value : Word} {n : Nat} {p : Port}
    (hport : gpioPortFromAddress s.gpio r.base = some (n, p))
    (hbus : BusOnly s (s.ackedBy n p value)) (himr : r.ImrIn s env.data) :
    AcksInside env (s.ackedBy n p value) rs address value ↔ AcksInside env s rs address value := by
  have hin : ∀ q : Region, q.ImrIn (s.ackedBy n p value) env.data ↔ q.ImrIn s env.data := by
    intro q
    rw [imrIn_iff, imrIn_iff, ackAccess_busOnly hbus]
  have hanswers : ∀ q : Region, q.AnswersIn (s.ackedBy n p value) address .write ↔
      q.AnswersIn s address .write := by
    intro q
    have hfixed : ∀ m, ((s.ackedBy n p value).gpio.port m).map Port.fixed =
        (s.gpio.port m).map Port.fixed := ackedBy_fixed hport
    have hfind := gpioPortFromAddress_fixed ackedBy_ports hfixed q.base
    have hsome := congrArg Option.isSome hfind
    rw [Option.isSome_map, Option.isSome_map] at hsome
    rw [Region.AnswersIn, Region.AnswersIn, hsome]
    rfl
  -- a second region of the port has its `IMR` where the first one has it
  have htakes : ∀ q : Region, ¬ q.ImrIn s env.data →
      (q.TakesAck (s.ackedBy n p value) address value ↔ q.TakesAck s address value) := by
    intro q hq
    have hbase : r.base ≠ q.base := by
      intro hbase
      refine hq ?_
      rw [Region.ImrIn, ← hbase]
      exact himr
    rw [← acks_iff, ← acks_iff, (permits_acks_ackedBy hport fun _ => hbase).2]
  have hone : ∀ q : Region, (q.TakesAck (s.ackedBy n p value) address value →
      q.ImrIn (s.ackedBy n p value) env.data) ↔ (q.TakesAck s address value → q.ImrIn s env.data) := by
    intro q
    rw [hin]
    by_cases hq : q.ImrIn s env.data
    · simp [hq]
    · rw [htakes q hq]
  simp only [AcksInside, hanswers, hone]

/-- What a check logs is inside of the windows. -/
theorem emuCheckFrom_inside_iff {env : Env} {s : Sys} {rs : List Region} {address value : Word} :
    (∀ e ∈ (emuCheckFrom address .write rs value s).events, e.Inside env) ↔
      AcksInside env s rs address value := by
  induction rs generalizing s with
  | nil => exact ⟨fun _ => acksInside_nil, fun _ e he => by cases he⟩
  | cons r rs ih =>
    rw [acksInside_cons, emuCheckFrom]
    by_cases hcov : r.covers address
    swap
    · simp only [hcov, if_false, false_imp_iff, true_imp_iff, true_and]
      exact ih
    simp only [hcov, if_true, true_imp_iff]
    rcases Code.runs_or_stops (r.runCheck address .write value) s with ⟨⟨ok, v⟩, s₁, hrun⟩ | ⟨e, hstop⟩
    swap
    · obtain ⟨hans, hw⟩ := runCheck_stops hstop
      rw [Code.events_bind_of_stops hstop, hw]
      exact ⟨fun _ => ⟨fun htakes => absurd htakes.answersIn hans, fun h => absurd h hans⟩,
        fun _ e he => by cases he⟩
    have hans := runCheck_answersIn hrun
    obtain ⟨-, hval, hbus, -, heffect⟩ := runCheck_runs hrun
    obtain rfl := hval rfl
    have hrest : ∀ t, ((do
        let x ← emuCheckFrom address .write rs v
        pure (ok && x.1, x.2) : Kernel (Bool × Word)) t).events =
          (emuCheckFrom address .write rs v t).events :=
      fun t => Code.events_bind_of_silent fun _ _ => rfl
    rw [Code.events_bind_of_runs hrun, List.forall_mem_append, hrest, ih]
    simp only [hans, true_imp_iff]
    by_cases htakes : r.TakesAck s address v
    · obtain ⟨n, p, hport, -, -, rfl⟩ := runCheck_ack hrun htakes
      rw [if_pos (acks_iff.mpr htakes)] at heffect
      obtain ⟨x, hw⟩ := heffect
      have himr : (∀ e ∈ (r.runCheck address .write v s).events, e.Inside env) ↔
          r.ImrIn s env.data := by
        rw [hw, List.forall_mem_singleton, imrIn_iff]
        rfl
      rw [himr]
      simp only [htakes, true_imp_iff]
      exact and_congr_right fun hr => acksInside_ackedBy hport hbus hr
    · rw [if_neg (fun hack => htakes (acks_iff.mp hack))] at heffect
      obtain ⟨hw, rfl⟩ := heffect
      rw [hw]
      simp [htakes]

/-- The check of a load logs nothing, and that of a store what acknowledges interrupts. -/
theorem emuAsk_inside_iff {env : Env} {op : EmuOp} {pa reg : Word} {s : Sys} :
    (∀ e ∈ (emuAsk op pa reg s).events, e.Inside env) ↔
      (op.state = .write → AcksInside env s s.regions pa reg) := by
  cases op with
  | load size sign =>
    refine ⟨fun _ h => EmuState.noConfusion h, fun _ e he => ?_⟩
    exact absurd he (emuCheck_silent (by decide) s e)
  | store size =>
    have hget : (emuAsk (.store size) pa reg s).events =
        (emuCheckFrom pa .write s.regions reg s).events :=
      Code.events_bind_of_runs (Code.runs_get.mpr ⟨rfl, rfl, rfl⟩)
    rw [hget, emuCheckFrom_inside_iff]
    exact ⟨fun h _ => h, fun h => h rfl⟩

/-! ## Accesses at the end of a window -/

/-- The instruction and the access fit into their windows, as far as they are made: the four bytes
of the instruction, the bytes of the access if `emu_check` allows it, and the register `IMR` of the
ports whose interrupts a store acknowledges. -/
def EmuFits (env : Env) (ctx : NsecCtx) (s : Sys) (status pa ia : Word) : Prop :=
  InRange env status pa ia → env.instr.Holds ia 4 ∧
    ∀ rt op, emuAccepts env s status pa ia = some (rt, op) →
      (emuAllows s op pa (ctx.get rt) → env.data.Holds pa op.size) ∧
        (op.state = .write → AcksInside env s s.regions pa (ctx.get rt))

theorem event_inside {env : Env} {op : EmuOp} {pa reg : Word} (hw : env.data.Whole)
    (h : env.data.contains pa) : (op.event env pa reg).Inside env ↔ env.data.Holds pa op.size := by
  cases op with
  | load size sign => exact hw.access_inside h size
  | store size => exact hw.access_inside h size

theorem imx6_whole : imx6.data.Whole ∧ imx6.instr.Whole := by
  refine ⟨⟨?_, ?_⟩, ?_, ?_⟩ <;> decide

end SeCloak
