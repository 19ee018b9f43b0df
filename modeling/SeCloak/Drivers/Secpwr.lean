import SeCloak.Drivers.GpioKeys
import SeCloak.Misc.Blocks
import SeCloak.Platform
import Mathlib.Data.List.Induction

/-!
# The secure power sequence

`secpwr_button_press_handler` recognises HOMEPAGE, BACK, VOLUMEUP and VOLUMEDOWN, where all but the
last may be pressed more than once. A press that does not fit starts over in `SECPWR_STATE0`, even
if it is the HOMEPAGE that a new sequence starts with.
-/

namespace SeCloak
open Misc Misc.Code

/-- The handler is called for each of the keys. -/
def pressKeys (keys : List Word) : Kernel Unit :=
  Code.forEach (fun code => do
    let _ ← secpwrButtonPressHandler code
    pure ()) keys

/-- The branch of the shutdown (`imx_gpio_keys.c:128-131`). -/
def secpwrFires (st : SecpwrState) (code : Word) : Prop := st = .state3 ∧ code = keyVolumedown

/-- The shutdown is triggered by the key `code` after the keys `before`. -/
def Fires (s : Sys) (before : List Word) (code : Word) : Prop :=
  ∃ w s', Runs (pressKeys before) s w () s' ∧ secpwrFires s'.secpwr code

/-- The keys `since` are those after the last trigger, or all of them if there was none. -/
def SinceTrigger (s : Sys) (before since : List Word) : Prop :=
  ∃ old, before = old ++ since ∧ (old = [] ∨ ∃ o code, old = o ++ [code] ∧ Fires s o code) ∧
    ∀ a code b, since = a ++ code :: b → ¬ Fires s (old ++ a) code

/-- The keys end with the power sequence. -/
def PowerSequence (keys : List Word) : Prop :=
  ∃ pre i j l, keys = pre ++ List.replicate (i + 1) keyHomepage ++
    List.replicate (j + 1) keyBack ++ List.replicate (l + 1) keyVolumeup ++ [keyVolumedown]

/-- The trigger fires for exactly the keys that end the power sequence. -/
def TriggersRight (s : Sys) (keys : List Word) : Prop :=
  ∀ before code after, keys = before ++ code :: after → ∀ since, SinceTrigger s before since →
    (Fires s before code ↔ PowerSequence (since ++ [code]))

/-- The state after the keys, from the initial one. -/
def secpwrState (keys : List Word) : SecpwrState := keys.foldl secpwrNext .state0

/-- A single HOMEPAGE that arrives in `SECPWR_STATE2` or `SECPWR_STATE3`, with the rest of the
sequence after it. -/
def MissedHome (keys : List Word) : Prop :=
  ∃ before i j after, keys = before ++ (keyHomepage :: List.replicate (i + 1) keyBack ++
      List.replicate (j + 1) keyVolumeup) ++ keyVolumedown :: after ∧
    (secpwrState before = .state2 ∨ secpwrState before = .state3)

section Runs

variable {s : Sys}

theorem pressKeys_runs (s : Sys) (keys : List Word) :
    Runs (pressKeys keys) s [] () { s with secpwr := keys.foldl secpwrNext s.secpwr } := by
  induction keys generalizing s with
  | nil => exact runs_forEach_nil.mpr ⟨rfl, rfl⟩
  | cons code keys ih =>
    refine runs_forEach_cons.mpr ⟨[], { s with secpwr := secpwrNext s.secpwr code }, [], ?_, ?_, rfl⟩
    · simp only [secpwrButtonPressHandler, runs_bind_assoc, runs_modify_bind, runs_pure_bind]
      exact runs_pure.mpr ⟨rfl, rfl, rfl⟩
    · exact ih { s with secpwr := secpwrNext s.secpwr code }

theorem fires_iff {before : List Word} {code : Word} :
    Fires { s with secpwr := .state0 } before code ↔ secpwrFires (secpwrState before) code := by
  constructor
  · rintro ⟨w, s', hrun, hfires⟩
    have hs' := (pressKeys_runs _ before).symm.trans hrun
    simp only [Outcome.mk.injEq, Except.ok.injEq, Prod.mk.injEq] at hs'
    rwa [← hs'.2.2] at hfires
  · exact fun hfires => ⟨[], _, pressKeys_runs _ before, hfires⟩

end Runs

/-! ## The automaton -/

@[simp] theorem secpwrState_snoc (keys : List Word) (code : Word) :
    secpwrState (keys ++ [code]) = secpwrNext (secpwrState keys) code := by
  simp [secpwrState]

theorem secpwrState_append (keys keys' : List Word) :
    secpwrState (keys ++ keys') = keys'.foldl secpwrNext (secpwrState keys) :=
  List.foldl_append

/-- The blocks that a state has seen, the last one first. -/
def SecpwrState.seen : SecpwrState → List Word
  | .state0 => []
  | .state1 => [keyHomepage]
  | .state2 => [keyBack, keyHomepage]
  | .state3 => [keyVolumeup, keyBack, keyHomepage]

theorem secpwrNext_of_fires {st : SecpwrState} {code : Word} (h : secpwrFires st code) :
    secpwrNext st code = .state0 := by
  obtain ⟨rfl, rfl⟩ := h
  rfl

/-- A step keeps that the keys end in the blocks of the state. -/
theorem endsInBlocks_next {st : SecpwrState} {keys : List Word} (code : Word)
    (h : EndsInBlocks st.seen keys) :
    EndsInBlocks (secpwrNext st code).seen (keys ++ [code]) := by
  cases st with
  | state0 =>
    rw [secpwrNext]
    split_ifs with hhome
    · exact endsInBlocks_snoc.mpr ⟨hhome, Or.inl h⟩
    · exact endsInBlocks_nil _
  | state1 =>
    rw [secpwrNext]
    split_ifs with hback hhome
    · exact endsInBlocks_snoc.mpr ⟨hback, Or.inl h⟩
    · exact endsInBlocks_snoc.mpr ⟨hhome, Or.inr h⟩
    · exact endsInBlocks_nil _
  | state2 =>
    rw [secpwrNext]
    split_ifs with hup hback
    · exact endsInBlocks_snoc.mpr ⟨hup, Or.inl h⟩
    · exact endsInBlocks_snoc.mpr ⟨hback, Or.inr h⟩
    · exact endsInBlocks_nil _
  | state3 =>
    rw [secpwrNext]
    split_ifs with hdown hup
    · exact endsInBlocks_nil _
    · exact endsInBlocks_snoc.mpr ⟨hup, Or.inr h⟩
    · exact endsInBlocks_nil _

theorem powerSequence_snoc {keys : List Word} {code : Word} :
    PowerSequence (keys ++ [code]) ↔
      code = keyVolumedown ∧ EndsInBlocks [keyVolumeup, keyBack, keyHomepage] keys := by
  constructor
  · rintro ⟨pre, i, j, l, h⟩
    obtain ⟨rfl, hcode⟩ := List.append_inj' h rfl
    exact ⟨List.singleton_inj.mp hcode, _, l, rfl, _, j, rfl, pre, i, rfl, trivial⟩
  · rintro ⟨rfl, _, l, rfl, _, j, rfl, pre, i, rfl, -⟩
    exact ⟨pre, i, j, l, rfl⟩

/-! The three blocks lead to `SECPWR_STATE3`, except when a single HOMEPAGE is lost. -/

theorem foldl_blocks {q : SecpwrState} (hq : q = .state0 ∨ q = .state1) (j l : Nat) :
    (keyHomepage :: List.replicate (j + 1) keyBack ++ List.replicate (l + 1) keyVolumeup).foldl
      secpwrNext q = .state3 := by
  have hhome : secpwrNext q keyHomepage = .state1 := by rcases hq with rfl | rfl <;> rfl
  have hback : (List.replicate (j + 1) keyBack).foldl secpwrNext .state1 = .state2 :=
    foldl_block rfl rfl j
  have hup : (List.replicate (l + 1) keyVolumeup).foldl secpwrNext .state2 = .state3 :=
    foldl_block rfl rfl l
  rw [List.cons_append, List.foldl_cons, hhome, List.foldl_append, hback, hup]

theorem foldl_missed {q : SecpwrState} (hq : q = .state2 ∨ q = .state3) (j l : Nat) :
    (keyHomepage :: List.replicate (j + 1) keyBack ++ List.replicate (l + 1) keyVolumeup).foldl
      secpwrNext q = .state0 := by
  have hhome : secpwrNext q keyHomepage = .state0 := by rcases hq with rfl | rfl <;> rfl
  have hback : (List.replicate (j + 1) keyBack).foldl secpwrNext .state0 = .state0 :=
    foldl_block rfl rfl j
  have hup : (List.replicate (l + 1) keyVolumeup).foldl secpwrNext .state0 = .state0 :=
    foldl_block rfl rfl l
  rw [List.cons_append, List.foldl_cons, hhome, List.foldl_append, hback, hup]

theorem secpwrNext_home (q : SecpwrState) :
    secpwrNext q keyHomepage = .state0 ∨ secpwrNext q keyHomepage = .state1 := by
  cases q <;> simp [secpwrNext, keyHomepage, keyBack, keyVolumeup, keyVolumedown]

/-- A sequence that is not lost leaves the handler in `SECPWR_STATE3`. -/
theorem secpwrState_of_blocks {keys old since after : List Word} (hkeys : keys = old ++ since)
    (hsince : EndsInBlocks [keyVolumeup, keyBack, keyHomepage] since)
    (hmiss : ¬ MissedHome (keys ++ keyVolumedown :: after)) :
    secpwrState keys = .state3 := by
  obtain ⟨_, l, rfl, _, j, rfl, pre, i, rfl, -⟩ := hsince
  -- the last HOMEPAGE is the one that counts
  have hlast : keys = (old ++ pre ++ List.replicate i keyHomepage) ++
      (keyHomepage :: List.replicate (j + 1) keyBack ++ List.replicate (l + 1) keyVolumeup) := by
    rw [hkeys, List.replicate_succ' (n := i)]
    simp
  have hstart : secpwrState (old ++ pre ++ List.replicate i keyHomepage) = .state0 ∨
      secpwrState (old ++ pre ++ List.replicate i keyHomepage) = .state1 := by
    cases i with
    | zero =>
      cases hq : secpwrState (old ++ pre ++ List.replicate 0 keyHomepage) with
      | state0 => exact Or.inl rfl
      | state1 => exact Or.inr rfl
      | state2 => exact absurd ⟨_, j, l, after, by rw [hlast], Or.inl hq⟩ hmiss
      | state3 => exact absurd ⟨_, j, l, after, by rw [hlast], Or.inr hq⟩ hmiss
    | succ i =>
      rw [List.replicate_succ' (n := i), ← List.append_assoc, secpwrState_snoc]
      exact secpwrNext_home _
  rw [hlast, secpwrState_append, foldl_blocks hstart]

/-! ## The keys since the trigger -/

section Since

variable {s : Sys} {before since : List Word} {code : Word}

theorem SinceTrigger.snoc (h : SinceTrigger s before since) (hcode : ¬ Fires s before code) :
    SinceTrigger s (before ++ [code]) (since ++ [code]) := by
  obtain ⟨old, rfl, hold, hno⟩ := h
  refine ⟨old, by simp, hold, fun a c b hsplit => ?_⟩
  rcases List.eq_nil_or_concat b with rfl | ⟨b, d, rfl⟩
  · obtain ⟨rfl, hc⟩ := List.append_inj' hsplit rfl
    rwa [← List.singleton_inj.mp hc]
  · rw [List.concat_eq_append, ← List.cons_append, ← List.append_assoc] at hsplit
    exact hno a c b (List.append_inj' hsplit rfl).1

theorem SinceTrigger.of_snoc (h : SinceTrigger s before (since ++ [code])) :
    ∃ before', before = before' ++ [code] ∧ SinceTrigger s before' since ∧
      ¬ Fires s before' code := by
  obtain ⟨old, rfl, hold, hno⟩ := h
  refine ⟨old ++ since, by simp, ⟨old, rfl, hold, fun a c b hsplit => ?_⟩, hno since code [] rfl⟩
  exact hno a c (b ++ [code]) (by simp [hsplit])

theorem exists_sinceTrigger (s : Sys) (before : List Word) : ∃ since, SinceTrigger s before since := by
  induction before using List.reverseRecOn with
  | nil => exact ⟨[], [], rfl, Or.inl rfl, by simp⟩
  | append_singleton before code ih =>
    by_cases hcode : Fires s before code
    · exact ⟨[], before ++ [code], by simp, Or.inr ⟨before, code, rfl, hcode⟩, by simp⟩
    · obtain ⟨since, hsince⟩ := ih
      exact ⟨since ++ [code], hsince.snoc hcode⟩

/-- Only VOLUMEDOWN triggers. -/
theorem SinceTrigger.append {keys : List Word}
    (h : SinceTrigger { s with secpwr := .state0 } before since)
    (hkeys : ∀ code ∈ keys, code ≠ keyVolumedown) :
    SinceTrigger { s with secpwr := .state0 } (before ++ keys) (since ++ keys) := by
  induction keys using List.reverseRecOn with
  | nil => simpa using h
  | append_singleton keys code ih =>
    rw [← List.append_assoc, ← List.append_assoc]
    refine (ih fun c hc => hkeys c (by simp [hc])).snoc fun hfires => ?_
    exact hkeys code (by simp) (fires_iff.mp hfires).2

/-- The keys since the trigger end in the blocks that the state has seen. -/
theorem SinceTrigger.seen (h : SinceTrigger { s with secpwr := .state0 } before since) :
    EndsInBlocks (secpwrState before).seen since := by
  induction since using List.reverseRecOn generalizing before with
  | nil =>
    obtain ⟨old, rfl, rfl | ⟨o, code, rfl, hfires⟩, -⟩ := h
    · exact endsInBlocks_nil _
    · rw [List.append_nil, secpwrState_snoc, secpwrNext_of_fires (fires_iff.mp hfires)]
      exact endsInBlocks_nil _
  | append_singleton since code ih =>
    obtain ⟨before', rfl, hbefore, -⟩ := h.of_snoc
    rw [secpwrState_snoc]
    exact endsInBlocks_next code (ih hbefore)

end Since

/-! ## When the trigger is right -/

section Triggers

variable {s : Sys} {keys : List Word}

theorem triggersRight_of_not_missedHome (h : ¬ MissedHome keys) :
    TriggersRight { s with secpwr := .state0 } keys := by
  rintro before code after rfl since hsince
  rw [fires_iff, powerSequence_snoc, secpwrFires]
  constructor
  · rintro ⟨hstate, hcode⟩
    have hseen := hsince.seen
    rw [hstate] at hseen
    exact ⟨hcode, hseen⟩
  · rintro ⟨rfl, hblocks⟩
    obtain ⟨old, hbefore, -⟩ := hsince
    exact ⟨secpwrState_of_blocks hbefore hblocks h, rfl⟩

theorem not_triggersRight_of_missedHome (h : MissedHome keys) :
    ¬ TriggersRight { s with secpwr := .state0 } keys := by
  intro hright
  obtain ⟨before, j, l, after, rfl, hstate⟩ := h
  obtain ⟨since, hsince⟩ := exists_sinceTrigger { s with secpwr := .state0 } before
  have hkeys : ∀ code ∈ keyHomepage :: List.replicate (j + 1) keyBack ++
      List.replicate (l + 1) keyVolumeup, code ≠ keyVolumedown := by
    simp [keyHomepage, keyBack, keyVolumeup, keyVolumedown]
  have hiff := hright _ keyVolumedown after rfl _ (hsince.append hkeys)
  rw [fires_iff, secpwrFires, secpwrState_append, foldl_missed hstate] at hiff
  have hpower : PowerSequence (since ++ (keyHomepage :: List.replicate (j + 1) keyBack ++
      List.replicate (l + 1) keyVolumeup) ++ [keyVolumedown]) :=
    ⟨since, 0, j, l, by simp⟩
  simpa using hiff.mpr hpower

end Triggers

/-- From the initial state the trigger is right for a list of keys if and only if no single HOMEPAGE
is lost in it. -/
theorem secpwr_triggers_iff (s : Sys) (keys : List Word) :
    TriggersRight { s with secpwr := .state0 } keys ↔ ¬ MissedHome keys :=
  ⟨fun hright hmiss => not_triggersRight_of_missedHome hmiss hright,
    triggersRight_of_not_missedHome⟩

/-- A second attempt whose HOMEPAGE ends the first one is not recognised. -/
theorem secpwr_second_attempt_lost : ¬ TriggersRight (resetWithInstr 0)
    [keyHomepage, keyBack, keyHomepage, keyBack, keyVolumeup, keyVolumedown] :=
  not_triggersRight_of_missedHome (s := resetWithInstr 0)
    ⟨[keyHomepage, keyBack], 0, 0, [], rfl, Or.inl rfl⟩

end SeCloak
