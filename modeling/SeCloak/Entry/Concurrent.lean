import SeCloak.Entry.Settings

/-!
# Several cores in the cloak entry

Every core runs `cloak_entry_set` and `cloak_entry_get` in three steps: `cpu_spin_trylock`, the
body, `cpu_spin_unlock`. A core whose trylock fails goes to the label `err_lock` and unlocks as
well, and so frees a lock that another core holds. The lock excludes as long as no core does so
while another core is inside (`exclusive_iff`).
-/

namespace SeCloak
open Misc

/-! ## Cores -/

/-- A call of one of the two entry functions. -/
inductive EntryCall where
  | set (presses : List Word) (args : SmcArgs)
  | get (args : SmcArgs)

/-- The body of a call, between lock and unlock, with the arguments it leaves. -/
def EntryCall.body (env : Env) (t : DeviceTable) : EntryCall → Kernel SmcArgs
  | .set presses args => do
    let error ← cloakSetBody env t presses args.a1
    pure { args with a0 := error }
  | .get args => do
    let args ← cloakGetBody args
    pure { args with a0 := opteeSmcReturnOk }

/-- Where a core is. -/
inductive Core where
  | idle
  /-- after a successful trylock, before the body -/
  | locked (call : EntryCall)
  /-- after the body, before the unlock -/
  | done (res : SmcArgs)
  /-- after a failed trylock, before the unlock -/
  | busy (call : EntryCall)
  /-- in a panic -/
  | stopped

/-- The core is between a successful trylock and its unlock. -/
def Core.Inside : Core → Prop
  | .locked _ | .done _ => True
  | _ => False

/-- The kernel with the positions of its cores. -/
structure Cores (κ : Type) where
  sys : Sys
  core : κ → Core

inductive Act (κ : Type) where
  | trylock (k : κ) (call : EntryCall)
  | body (k : κ)
  | unlock (k : κ)
  | busyUnlock (k : κ)

section Cores

variable {κ : Type} [DecidableEq κ]

/-- Core `k` moves on to `p` and leaves the kernel in the state `s`. -/
def Cores.move (c : Cores κ) (k : κ) (p : Core) (s : Sys) : Cores κ :=
  ⟨s, Function.update c.core k p⟩

/-- One atomic step of a core. The unlock of a busy core stores to the lock before
`spinlock_count_decr` asserts that the core had a lock. -/
inductive Moves (env : Env) (t : DeviceTable) (c : Cores κ) : Act κ → Cores κ → Prop
  | taken {k : κ} {call : EntryCall} {s : Sys} (at_ : c.core k = .idle)
    (run : Code.Runs cpuSpinTrylock c.sys [] true s) :
    Moves env t c (.trylock k call) (c.move k (.locked call) s)
  | refused {k : κ} {call : EntryCall} {s : Sys} (at_ : c.core k = .idle)
    (run : Code.Runs cpuSpinTrylock c.sys [] false s) :
    Moves env t c (.trylock k call) (c.move k (.busy call) s)
  | body {k : κ} {call : EntryCall} {w : List Event} {res : SmcArgs} {s : Sys}
    (at_ : c.core k = .locked call) (run : Code.Runs (call.body env t) c.sys w res s) :
    Moves env t c (.body k) (c.move k (.done res) s)
  | unlock {k : κ} {res : SmcArgs} {s : Sys} (at_ : c.core k = .done res)
    (run : Code.Runs (cpuSpinUnlock env 1) c.sys [] () s) :
    Moves env t c (.unlock k) (c.move k .idle s)
  | busyUnlock {k : κ} {call : EntryCall} (at_ : c.core k = .busy call) :
    Moves env t c (.busyUnlock k)
      (c.move k (if (cpuSpinUnlock env 0).succeeds c.sys then .idle else .stopped) c.sys.unlocked)

/-- A step with the states before and after it. -/
structure Transition (κ : Type) where
  pre : Cores κ
  act : Act κ
  post : Cores κ

def coreStep (env : Env) (t : DeviceTable) (c : Cores κ) (x : Transition κ) (c' : Cores κ) : Prop :=
  x.pre = c ∧ x.post = c' ∧ Moves env t c x.act c'

/-! ## Exclusion -/

/-- At most one core is inside, and the lock is taken exactly if one is. -/
structure Exclusive (c : Cores κ) : Prop where
  unique : ∀ j k, (c.core j).Inside → (c.core k).Inside → j = k
  lock : c.sys.cloak.lock ≠ 0 ↔ ∃ k, (c.core k).Inside

theorem inside_move {c : Cores κ} {k j : κ} {p : Core} {s : Sys} :
    ((c.move k p s).core j).Inside ↔ (j = k ∧ p.Inside) ∨ (j ≠ k ∧ (c.core j).Inside) := by
  by_cases hj : j = k
  · subst hj
    simp [Cores.move]
  · simp [Cores.move, hj]

/-- A step that moves no core in or out and keeps the lock. -/
theorem Exclusive.move {c : Cores κ} {k : κ} {p : Core} {s : Sys} (h : Exclusive c)
    (hp : p.Inside ↔ (c.core k).Inside) (hlock : s.cloak.lock = c.sys.cloak.lock) :
    Exclusive (c.move k p s) := by
  have hiff : ∀ j, ((c.move k p s).core j).Inside ↔ (c.core j).Inside := by
    intro j
    rw [inside_move]
    by_cases hj : j = k
    · subst hj
      simp [hp]
    · simp [hj]
  refine ⟨fun i j hi hj => h.unique i j ((hiff i).mp hi) ((hiff j).mp hj), ?_⟩
  change s.cloak.lock ≠ 0 ↔ _
  rw [hlock, h.lock]
  exact exists_congr fun j => (hiff j).symm

theorem body_lock {env : Env} {t : DeviceTable} {call : EntryCall} {s s' : Sys} {w : List Event}
    {res : SmcArgs} (h : Code.Runs (call.body env t) s w res s') :
    s'.cloak.lock = s.cloak.lock := by
  cases call with
  | set presses args =>
    obtain ⟨w₁, err, s₁, w₂, h₁, h₂, -⟩ := Code.runs_bind.mp h
    obtain ⟨-, -, rfl⟩ := Code.runs_pure.mp h₂
    obtain ⟨-, ⟨st⟩⟩ := cloakSetBody_stages h₁
    exact st.lock_eq
  | get args =>
    obtain ⟨w₁, args', s₁, w₂, h₁, h₂, -⟩ := Code.runs_bind.mp h
    obtain ⟨-, -, rfl⟩ := Code.runs_pure.mp h₂
    rw [cloakGetBody, Code.runs_get_bind, Code.runs_pure] at h₁
    rw [h₁.2.2]

/-- What is asked of a step: it keeps exclusion, and a busy core leaves the lock as it was. -/
def Transition.Good (x : Transition κ) : Prop :=
  Exclusive x.post ∧ ∀ k, x.act = .busyUnlock k → x.post.sys.cloak.lock = x.pre.sys.cloak.lock

/-- No core unlocks after a failed trylock while another core is inside. -/
def Transition.Polite (x : Transition κ) : Prop :=
  ∀ k, x.act = .busyUnlock k → ∀ j, ¬ (x.pre.core j).Inside

omit [DecidableEq κ] in
theorem good_of_not_busy {x : Transition κ} (hact : ∀ k, x.act ≠ .busyUnlock k)
    (hex : Exclusive x.post) : x.Good ↔ x.Polite :=
  ⟨fun _ k hk => absurd hk (hact k), fun _ => ⟨hex, fun k hk => absurd hk (hact k)⟩⟩

theorem not_inside_stopped {p : Prop} [Decidable p] :
    ¬ (if p then Core.idle else .stopped).Inside := by
  split <;> exact id

/-- The steps of the code: exclusion is kept by every step but that of a busy core. -/
theorem moves_good {env : Env} {t : DeviceTable} {c c' : Cores κ} {a : Act κ}
    (hc : Exclusive c) (h : Moves env t c a c') : (Transition.mk c a c').Good ↔
      (Transition.mk c a c').Polite := by
  cases h with
  | @taken k call s at_ run =>
    obtain ⟨-, ⟨hfree, -, rfl⟩ | ⟨-, habs, -⟩⟩ := cpuSpinTrylock_runs.mp run
    swap
    · cases habs
    have hnone : ∀ j, ¬ (c.core j).Inside := fun j hj => hc.lock.mpr ⟨j, hj⟩ hfree
    have honly : ∀ j, ((c.move k (.locked call) c.sys.locked).core j).Inside → j = k := by
      intro j hj
      rcases inside_move.mp hj with ⟨hjk, -⟩ | ⟨-, hj⟩
      · exact hjk
      · exact absurd hj (hnone j)
    refine good_of_not_busy (by intro j habs; cases habs) ⟨fun i j hi hj => ?_, ?_⟩
    · rw [honly i hi, honly j hj]
    · refine ⟨fun _ => ⟨k, inside_move.mpr (Or.inl ⟨rfl, trivial⟩)⟩, fun _ => ?_⟩
      change (1 : Word) ≠ 0
      decide
  | @refused k call s at_ run =>
    obtain ⟨-, ⟨-, habs, -⟩ | ⟨-, -, rfl⟩⟩ := cpuSpinTrylock_runs.mp run
    · cases habs
    refine good_of_not_busy (by intro j habs; cases habs) (hc.move ?_ rfl)
    rw [at_]
    rfl
  | @body k call w res s at_ run =>
    refine good_of_not_busy (by intro j habs; cases habs) (hc.move ?_ (body_lock run))
    rw [at_]
    rfl
  | @unlock k res s at_ run =>
    obtain ⟨-, rfl, -⟩ := cpuSpinUnlock_runs.mp run
    have hin : (c.core k).Inside := by
      rw [at_]
      trivial
    have hout : ∀ j, ¬ ((c.move k .idle c.sys.unlocked).core j).Inside := by
      intro j hj
      rcases inside_move.mp hj with ⟨-, habs⟩ | ⟨hne, hj⟩
      · exact habs
      · exact hne (hc.unique j k hj hin)
    refine good_of_not_busy (by intro j habs; cases habs) ⟨fun i j hi _ => absurd hi (hout i), ?_⟩
    exact ⟨fun habs => absurd rfl habs, fun ⟨j, hj⟩ => absurd hj (hout j)⟩
  | @busyUnlock k call at_ =>
    have hk : ¬ (c.core k).Inside := by
      rw [at_]
      exact id
    constructor
    · -- the lock is free afterwards, so nobody may be inside
      rintro ⟨hex, -⟩ j - i hi
      have hik : i ≠ k := by
        rintro rfl
        exact hk hi
      exact hex.lock.mpr ⟨i, inside_move.mpr (Or.inr ⟨hik, hi⟩)⟩ rfl
    · intro hpol
      have hnone := hpol k rfl
      have hfree : c.sys.cloak.lock = 0 := by
        by_contra hne
        obtain ⟨j, hj⟩ := hc.lock.mp hne
        exact hnone j hj
      refine ⟨hc.move ?_ hfree.symm, fun _ _ => hfree.symm⟩
      exact iff_of_false not_inside_stopped hk

/-- In every interleaving of the cores that starts with the lock free and nobody inside, all
states are exclusive and every busy call leaves the lock as it found it, exactly if no busy core
unlocks while another core is inside. -/
theorem exclusive_iff {env : Env} {t : DeviceTable} {c₀ c : Cores κ} {xs : List (Transition κ)}
    (hidle : ∀ k, c₀.core k = .idle) (hfree : c₀.sys.cloak.lock = 0)
    (h : Steps (coreStep env t) c₀ xs c) : (∀ x ∈ xs, x.Good) ↔ ∀ x ∈ xs, x.Polite := by
  have h₀ : Exclusive c₀ := by
    have hout : ∀ k, ¬ (c₀.core k).Inside := by
      intro k
      rw [hidle]
      exact id
    exact ⟨fun j _ hj => absurd hj (hout j),
      ⟨fun hne => absurd hfree hne, fun ⟨k, hk⟩ => absurd hk (hout k)⟩⟩
  clear hidle hfree
  induction h with
  | nil c => simp
  | @cons c c₁ c' x xs first rest ih =>
    obtain ⟨rfl, rfl, hmove⟩ := first
    have hgood := moves_good h₀ hmove
    rw [List.forall_mem_cons, List.forall_mem_cons]
    constructor
    · rintro ⟨hx, hxs⟩
      exact ⟨hgood.mp hx, (ih hx.1).mp hxs⟩
    · rintro ⟨hx, hxs⟩
      have hx' := hgood.mpr hx
      exact ⟨hx', (ih hx'.1).mpr hxs⟩

end Cores

namespace Board

def setCall : EntryCall := .set [keyHomepage] ⟨opteeSmcCloakSet, 0, 0, 0, 0, 0, 0, 0⟩
def getCall : EntryCall := .get ⟨opteeSmcCloakGet, opteeSmcCloakGet, 0, 0, 0, 0, 0, 0⟩

/-- Three cores: the first takes the lock for a `CLOAK_SET`, the second finds it taken and
unlocks, the third takes it again. -/
def idle (s : Sys) : Cores (Fin 3) := ⟨s, fun _ => .idle⟩
def waiting (s : Sys) : Cores (Fin 3) := (idle s).move 0 (.locked setCall) s.locked
def refused (s : Sys) : Cores (Fin 3) := (waiting s).move 1 (.busy getCall) s.locked
def freed (s : Sys) : Cores (Fin 3) := (refused s).move 1
  (if (cpuSpinUnlock imx6 0).succeeds s.locked then .idle else .stopped) s.locked.unlocked
def entered (s : Sys) : Cores (Fin 3) :=
  (freed s).move 2 (.locked getCall) s.locked.unlocked.locked

def race (s : Sys) : List (Transition (Fin 3)) :=
  [⟨idle s, .trylock 0 setCall, waiting s⟩, ⟨waiting s, .trylock 1 getCall, refused s⟩,
   ⟨refused s, .busyUnlock 1, freed s⟩, ⟨freed s, .trylock 2 getCall, entered s⟩]

theorem steps_race {s : Sys} (h : s.cloak.lock = 0) :
    Steps (coreStep imx6 table) (idle s) (race s) (entered s) := by
  have hrefused : coreStep imx6 table (waiting s)
      ⟨waiting s, .trylock 1 getCall, refused s⟩ (refused s) := by
    refine ⟨rfl, rfl, .refused rfl (cpuSpinTrylock_runs.mpr ⟨rfl, Or.inr ⟨?_, rfl, rfl⟩⟩)⟩
    change (1 : Word) ≠ 0
    decide
  have hfreed : coreStep imx6 table (refused s) ⟨refused s, .busyUnlock 1, freed s⟩ (freed s) :=
    ⟨rfl, rfl, .busyUnlock rfl⟩
  have hentered : coreStep imx6 table (freed s)
      ⟨freed s, .trylock 2 getCall, entered s⟩ (entered s) :=
    ⟨rfl, rfl, .taken rfl (cpuSpinTrylock_runs.mpr ⟨rfl, Or.inl ⟨rfl, rfl, rfl⟩⟩)⟩
  have hwaiting : coreStep imx6 table (idle s) ⟨idle s, .trylock 0 setCall, waiting s⟩ (waiting s) :=
    ⟨rfl, rfl, .taken rfl (cpuSpinTrylock_runs.mpr ⟨rfl, Or.inl ⟨h, rfl, rfl⟩⟩)⟩
  exact .cons hwaiting (.cons hrefused (.cons hfreed (.cons hentered (.nil _))))

/-- Two cores read the settings: the second finds the lock taken, and unlocks when the first has
left. -/
def answer (s : Sys) : SmcArgs := ⟨opteeSmcReturnOk, s.cloak.prevSettings, 0, 0, 0, 0, 0, 0⟩
def reading (s : Sys) : Cores (Fin 3) := (idle s).move 0 (.locked getCall) s.locked
def denied (s : Sys) : Cores (Fin 3) := (reading s).move 1 (.busy getCall) s.locked
def answered (s : Sys) : Cores (Fin 3) := (denied s).move 0 (.done (answer s)) s.locked
def left (s : Sys) : Cores (Fin 3) := (answered s).move 0 .idle s.locked.unlocked
def givenUp (s : Sys) : Cores (Fin 3) :=
  (left s).move 1 (if (cpuSpinUnlock imx6 0).succeeds s.locked.unlocked then .idle else .stopped)
    s.locked.unlocked.unlocked

def reads (s : Sys) : List (Transition (Fin 3)) :=
  [⟨idle s, .trylock 0 getCall, reading s⟩, ⟨reading s, .trylock 1 getCall, denied s⟩,
   ⟨denied s, .body 0, answered s⟩, ⟨answered s, .unlock 0, left s⟩,
   ⟨left s, .busyUnlock 1, givenUp s⟩]

theorem steps_reads {s : Sys} (h : s.cloak.lock = 0) :
    Steps (coreStep imx6 table) (idle s) (reads s) (givenUp s) := by
  have hreading : coreStep imx6 table (idle s) ⟨idle s, .trylock 0 getCall, reading s⟩ (reading s) :=
    ⟨rfl, rfl, .taken rfl (cpuSpinTrylock_runs.mpr ⟨rfl, Or.inl ⟨h, rfl, rfl⟩⟩)⟩
  have hdenied : coreStep imx6 table (reading s)
      ⟨reading s, .trylock 1 getCall, denied s⟩ (denied s) := by
    refine ⟨rfl, rfl, .refused rfl (cpuSpinTrylock_runs.mpr ⟨rfl, Or.inr ⟨?_, rfl, rfl⟩⟩)⟩
    change (1 : Word) ≠ 0
    decide
  have hanswered : coreStep imx6 table (denied s) ⟨denied s, .body 0, answered s⟩ (answered s) := by
    refine ⟨rfl, rfl, .body rfl (w := []) ?_⟩
    rfl
  have hleft : coreStep imx6 table (answered s) ⟨answered s, .unlock 0, left s⟩ (left s) :=
    ⟨rfl, rfl, .unlock rfl (cpuSpinUnlock_runs.mpr ⟨rfl, rfl, fun _ => by decide⟩)⟩
  have hgivenUp : coreStep imx6 table (left s) ⟨left s, .busyUnlock 1, givenUp s⟩ (givenUp s) :=
    ⟨rfl, rfl, .busyUnlock rfl⟩
  exact .cons hreading (.cons hdenied (.cons hanswered (.cons hleft (.cons hgivenUp (.nil _)))))

/-- When the second core unlocks, no core is inside. -/
theorem reads_polite (s : Sys) : ∀ x ∈ reads s, x.Polite := by
  intro x hx
  simp only [reads, List.mem_cons, List.not_mem_nil, or_false] at hx
  obtain rfl | rfl | rfl | rfl | rfl := hx
  · exact fun k h => by cases h
  · exact fun k h => by cases h
  · exact fun k h => by cases h
  · exact fun k h => by cases h
  · intro k _ j
    obtain ⟨j, hj⟩ := j
    rcases j with _ | _ | _ | j
    · exact id
    · exact id
    · exact id
    · omega

end Board

theorem exclusive_iff_reads :
    Steps (coreStep imx6 Board.table) (Board.idle (resetWithInstr 0))
        (Board.reads (resetWithInstr 0)) (Board.givenUp (resetWithInstr 0)) ∧
      ∀ x ∈ Board.reads (resetWithInstr 0), x.Good := by
  have hsteps := @Board.steps_reads (resetWithInstr 0) rfl
  exact ⟨hsteps, (exclusive_iff (fun _ => rfl) rfl hsteps).mpr (Board.reads_polite _)⟩

/-- From boot, two cores are inside at the same time, and the busy call changed the lock. -/
theorem exclusion_broken :
    Steps (coreStep imx6 Board.table) (Board.idle (Board.booted imx6 0))
        (Board.race (Board.booted imx6 0)) (Board.entered (Board.booted imx6 0)) ∧
      ((Board.entered (Board.booted imx6 0)).core 0).Inside ∧
      ((Board.entered (Board.booted imx6 0)).core 2).Inside ∧
      (Board.freed (Board.booted imx6 0)).sys.cloak.lock ≠
        (Board.refused (Board.booted imx6 0)).sys.cloak.lock := by
  have hsteps := Board.steps_race Board.booted_ok.lock
  generalize Board.booted imx6 0 = s at hsteps ⊢
  refine ⟨hsteps, trivial, trivial, ?_⟩
  change (0 : Word) ≠ 1
  decide

end SeCloak
