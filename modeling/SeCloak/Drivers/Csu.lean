import Mathlib.Logic.Function.Basic
import SeCloak.Misc.BitField
import SeCloak.State

/-!
# The central security unit (`imx_csu.c`)

Each CSL number has an eight-bit field in one half of a CSL register and a counter of the
parties that want it protected; the field is written only when the counter leaves or reaches
zero. `Csu.Ok` is the consistency of counters and fields that `csu_init` establishes and
`csu_set_csl` keeps.
-/

namespace SeCloak
open Misc

/-- `MAX_CSL` (`imx_csu.c:8`). -/
def maxCsl : Nat := 80

/-- The half of its register that a CSL number owns (`imx_csu.c:56`). -/
def cslMask (csl : Nat) : Word := if csl % 2 = 0 then 0x000000FF else 0x00FF0000

/-- The effect of `csu_set_csl` (`imx_csu.c:39-63`) once its asserts hold. -/
def Csu.setCsl (c : Csu) (csl : Nat) (protect : Bool) : Csu :=
  let count := c.counts csl
  let update := if protect then count == 0 else count == 1
  let count' := if protect then count + 1 else count - 1
  let value := c.csl (csl / 2)
  let valueNew := maskWrite value (cslMask csl) (if protect then 0x33333333 else 0xFFFFFFFF)
  { c with
    counts := Function.update c.counts csl count'
    csl := if update then Function.update c.csl (csl / 2) valueNew else c.csl }

/-- `csu_set_csl` (`imx_csu.c:39-63`). -/
def csuSetCsl (env : Env) (csl : Int) (protect : Bool) : Kernel Unit := do
  kassert env (0 ≤ csl ∧ csl < maxCsl)
  -- without the assert an index outside of `csu_csl_counts` is undefined
  Code.require (0 ≤ csl ∧ csl < maxCsl) .undefined
  let s ← Code.get
  kassert env (protect = true ∨ 0 ≤ s.csu.counts csl.toNat - 1)
  Code.modify fun s => { s with csu := s.csu.setCsl csl.toNat protect }
  logProt

/-- `csu_set_sa` (`imx_csu.c:71-82`). -/
def Csu.setSa (c : Csu) (master : Nat) (secure : Bool) : Csu :=
  { c with sa := maskWrite c.sa (3#32 <<< (2 * master)) (if secure then 0 else 0x55555555) }

/-- `csu_init` (`imx_csu.c:14-37`); `mapped` is whether the base address could be mapped. -/
def csuInit (env : Env) (mapped : Bool) : Kernel Unit := do
  Code.require (mapped = true) .panic
  -- default to no protections
  Code.forEach (fun c => do
    Code.modify fun s => { s with csu := { s.csu with counts := Function.update s.csu.counts c 1 } }
    csuSetCsl env c false) (List.range maxCsl)
  -- default to non-secure DMA masters (6 and 15 are reserved)
  Code.forEach (fun m =>
    if m = 6 ∨ m = 15 then pure ()
    else Code.modify fun s => { s with csu := s.csu.setSa m false }) (List.range' 1 15)

/-- The field of a CSL number. -/
def Csu.field (c : Csu) (csl : Nat) : Byte :=
  (c.csl (csl / 2)).extractLsb' (if csl % 2 = 0 then 0 else 16) 8

/-! ## Fields -/

theorem setCsl_counts (c : Csu) (n m : Nat) (p : Bool) :
    (c.setCsl n p).counts m =
      if m = n then (if p then c.counts n + 1 else c.counts n - 1) else c.counts m := by
  by_cases h : m = n
  · subst h; simp [Csu.setCsl]
  · simp [Csu.setCsl, h]

theorem cslMask_keep (n : Nat) : cslMask n &&& 0xFF00FF00#32 = 0#32 := by
  unfold cslMask
  split <;> decide

theorem cslMask_covers (n : Nat) :
    ∀ i < 8, (cslMask n).getLsbD ((if n % 2 = 0 then 0 else 16) + i) = true := by
  unfold cslMask
  split <;> decide

theorem cslMask_disjoint {n m : Nat} (h : m % 2 ≠ n % 2) :
    ∀ i < 8, (cslMask n).getLsbD ((if m % 2 = 0 then 0 else 16) + i) = false := by
  rcases Nat.mod_two_eq_zero_or_one n with hn | hn
  · have hm : m % 2 = 1 := by omega
    simp only [cslMask, hn, hm, if_true]
    decide
  · have hm : m % 2 = 0 := by omega
    simp only [cslMask, hn, hm, if_true]
    decide

/-- Both patterns `csu_set_csl` writes repeat one byte. -/
theorem extract_pattern (p : Bool) (n : Nat) :
    (if p then 0x33333333#32 else 0xFFFFFFFF#32).extractLsb' (if n % 2 = 0 then 0 else 16) 8 =
      if p then 0x33#8 else 0xFF#8 := by
  cases p <;> split <;> decide

/-- `csu_set_csl` rewrites the field it is called for when the counter leaves or reaches zero
and no other field. -/
theorem setCsl_field (c : Csu) (n m : Nat) (p : Bool) :
    (c.setCsl n p).field m =
      if m = n ∧ c.counts n = (if p then 0 else 1) then (if p then 0x33 else 0xFF)
      else c.field m := by
  by_cases hu : c.counts n = (if p then 0 else 1)
  · have hcsl : (c.setCsl n p).csl = Function.update c.csl (n / 2)
        (maskWrite (c.csl (n / 2)) (cslMask n) (if p then 0x33333333 else 0xFFFFFFFF)) := by
      cases p <;> simp_all [Csu.setCsl]
    by_cases hm : m = n
    · subst hm
      rw [if_pos ⟨rfl, hu⟩, Csu.field, hcsl, Function.update_self,
        extract_maskWrite_of_covers (cslMask_covers m)]
      exact extract_pattern p m
    · rw [if_neg (fun h => hm h.1), Csu.field, hcsl]
      by_cases hr : m / 2 = n / 2
      · rw [hr, Function.update_self, extract_maskWrite_of_disjoint (cslMask_disjoint (by omega)),
          Csu.field, hr]
      · rw [Function.update_of_ne hr, Csu.field]
  · have hcsl : (c.setCsl n p).csl = c.csl := by
      cases p <;> simp_all [Csu.setCsl]
    rw [if_neg (fun h => hu h.2), Csu.field, hcsl, Csu.field]

/-- The bits of the CSL registers that belong to no field. -/
def Csu.spare (c : Csu) (i : Nat) : Word := c.csl i &&& 0xFF00FF00#32

theorem setCsl_spare (c : Csu) (n : Nat) (p : Bool) : (c.setCsl n p).spare = c.spare := by
  funext i
  unfold Csu.spare
  have hcsl : (c.setCsl n p).csl = c.csl ∨ ∃ v, (c.setCsl n p).csl =
      Function.update c.csl (n / 2) (maskWrite (c.csl (n / 2)) (cslMask n) v) := by
    unfold Csu.setCsl
    dsimp only
    generalize (if p then c.counts n == 0 else c.counts n == 1) = update
    cases update
    · exact Or.inl rfl
    · exact Or.inr ⟨_, rfl⟩
  rcases hcsl with hcsl | ⟨v, hcsl⟩
  · rw [hcsl]
  · rw [hcsl]
    by_cases hi : i = n / 2
    · subst hi
      rw [Function.update_self]
      exact maskWrite_and_of_disjoint (cslMask_keep n)
    · rw [Function.update_of_ne hi]

/-- Counters are not negative and each field says whether its counter is positive. -/
structure Csu.Ok (c : Csu) : Prop where
  nonneg : ∀ n < maxCsl, 0 ≤ c.counts n
  field : ∀ n < maxCsl, c.field n = if 0 < c.counts n then 0x33 else 0xFF

/-- The two halves of a step: a counter only goes down from a positive value. -/
theorem Csu.Ok.setCsl {c : Csu} (h : c.Ok) {n : Nat} {p : Bool}
    (hp : p = true ∨ 0 < c.counts n) : (c.setCsl n p).Ok where
  nonneg m hm := by
    have := h.nonneg m hm
    rw [setCsl_counts]
    split
    · rename_i hmn
      subst hmn
      cases p <;> simp_all <;> omega
    · exact this
  field m hm := by
    have hn := h.nonneg m hm
    have hf := h.field m hm
    rw [setCsl_field, setCsl_counts]
    by_cases hmn : m = n
    · subst hmn
      cases p with
      | true =>
        by_cases h0 : c.counts m = 0
        · simp [h0]
        · have h1 : 0 < c.counts m := by omega
          have h2 : 0 < c.counts m + 1 := by omega
          simp [h0, hf, h1, h2]
      | false =>
        have h1 : 0 < c.counts m := by simpa using hp
        by_cases h0 : c.counts m = 1
        · simp [h0]
        · simp [h0, hf, h1, show 1 < c.counts m by omega]
    · simp [hmn, hf]

theorem cslMask_bits {n i : Nat} (h : (cslMask n).getLsbD i = true) :
    ∃ j < 8, i = (if n % 2 = 0 then 0 else 16) + j := by
  have hi : i < 32 := BitVec.lt_of_getLsbD h
  unfold cslMask at h
  split
  · rw [if_pos ‹_›] at h
    have hlow : ∀ i < 32, (0x000000FF#32).getLsbD i = true → i < 8 := by decide
    exact ⟨i, hlow i hi h, by omega⟩
  · rw [if_neg ‹_›] at h
    have hhigh : ∀ i < 32, (0x00FF0000#32).getLsbD i = true → 16 ≤ i ∧ i < 24 := by decide
    have := hhigh i hi h
    exact ⟨i - 16, by omega, by omega⟩

/-- The register of a CSL that is not protected already holds what is written to open it. -/
theorem maskWrite_open {c : Csu} {n : Nat} (h : c.field n = 0xFF) :
    maskWrite (c.csl (n / 2)) (cslMask n) 0xFFFFFFFF = c.csl (n / 2) := by
  refine maskWrite_same fun i hi => ?_
  obtain ⟨j, hj, rfl⟩ := cslMask_bits hi
  have hbit := congrArg (fun x : Byte => x.getLsbD j) h
  have hones : ∀ j < 8, (0xFF : Byte).getLsbD j = true := by decide
  have hword : ∀ i < 32, (0xFFFFFFFF#32).getLsbD i = true := by decide
  simp only [Csu.field, BitVec.getLsbD_extractLsb', hj, decide_true, Bool.true_and, hones j hj] at hbit
  rw [hbit]
  exact hword _ (BitVec.lt_of_getLsbD hbit)

theorem setCsl_twice_counts (c : Csu) (n : Nat) :
    ((c.setCsl n true).setCsl n false).counts = c.counts := by
  funext m
  rw [setCsl_counts, setCsl_counts, setCsl_counts]
  by_cases hm : m = n
  · subst hm
    simp
  · simp [hm]

/-- Taking a CSL and giving it back restores counters and registers. -/
theorem Csu.Ok.setCsl_twice {c : Csu} (h : c.Ok) {n : Nat} (hn : n < maxCsl) :
    (c.setCsl n true).setCsl n false = c := by
  have hcounts := setCsl_twice_counts c n
  have hcsl : ((c.setCsl n true).setCsl n false).csl = c.csl := by
    by_cases h0 : c.counts n = 0
    · -- the register is written both times
      have hfield : c.field n = 0xFF := by
        rw [h.field n hn, h0]
        rfl
      have hfirst : (c.setCsl n true).csl = Function.update c.csl (n / 2)
          (maskWrite (c.csl (n / 2)) (cslMask n) 0x33333333) := by
        simp [Csu.setCsl, h0]
      have hone : (c.setCsl n true).counts n = 1 := by
        rw [setCsl_counts]
        simp [h0]
      have hsecond : ((c.setCsl n true).setCsl n false).csl =
          Function.update (c.setCsl n true).csl (n / 2)
            (maskWrite ((c.setCsl n true).csl (n / 2)) (cslMask n) 0xFFFFFFFF) := by
        generalize c.setCsl n true = c₁ at hone
        simp [Csu.setCsl, hone]
      rw [hsecond, hfirst, Function.update_self, Function.update_idem, maskWrite_maskWrite,
        maskWrite_open hfield, Function.update_eq_self]
    · -- the counter stays positive, and the register is not written at all
      have hpos := h.nonneg n hn
      have hfirst : (c.setCsl n true).csl = c.csl := by simp [Csu.setCsl, h0]
      have hne : (c.setCsl n true).counts n ≠ 1 := by
        rw [setCsl_counts]
        simp
        omega
      generalize c.setCsl n true = c₁ at hfirst hne
      rw [← hfirst]
      simp [Csu.setCsl, hne]
  have hsa : ((c.setCsl n true).setCsl n false).sa = c.sa := rfl
  generalize (c.setCsl n true).setCsl n false = c' at hcounts hcsl hsa
  cases c'
  cases c
  simp_all

/-- The field of a CSL shows its counter. -/
def Csu.Shows (c : Csu) (n : Nat) : Prop := c.field n = if 0 < c.counts n then 0x33 else 0xFF

theorem Csu.Shows.setCsl {c : Csu} {n : Nat} (h : c.Shows n) (m : Nat) (p : Bool) :
    (c.setCsl m p).Shows n := by
  unfold Csu.Shows at h ⊢
  rw [setCsl_field, setCsl_counts]
  by_cases hnm : n = m
  · subst hnm
    cases p with
    | true =>
      by_cases h0 : c.counts n = 0
      · simp [h0]
      · have hiff : 0 < c.counts n + 1 ↔ 0 < c.counts n := by omega
        simp [h0, h, hiff]
    | false =>
      by_cases h1 : c.counts n = 1
      · simp [h1]
      · have hiff : 1 < c.counts n ↔ 0 < c.counts n := by omega
        simp [h1, h, hiff]
  · simp [hnm, h]

/-- The fields and the bits outside of them make up the registers. -/
theorem csl_ext {c d : Csu} (hfield : ∀ n, c.field n = d.field n) (hspare : c.spare = d.spare) :
    c.csl = d.csl := by
  funext i
  have hlo := hfield (2 * i)
  have hhi := hfield (2 * i + 1)
  have hkeep : c.csl i &&& 0xFF00FF00#32 = d.csl i &&& 0xFF00FF00#32 := congrFun hspare i
  unfold Csu.field at hlo hhi
  rw [show 2 * i / 2 = i by omega, if_pos (show 2 * i % 2 = 0 by omega)] at hlo
  rw [show (2 * i + 1) / 2 = i by omega, if_neg (show ¬ (2 * i + 1) % 2 = 0 by omega)] at hhi
  apply BitVec.eq_of_getLsbD_eq
  intro k hk
  have hpart : k < 8 ∨ (16 ≤ k ∧ k < 24) ∨ (0xFF00FF00#32).getLsbD k = true := by
    have hbits : ∀ k < 32, k < 8 ∨ (16 ≤ k ∧ k < 24) ∨ (0xFF00FF00#32).getLsbD k = true := by decide
    exact hbits k hk
  rcases hpart with hlt | ⟨hge, hlt⟩ | hbit
  · have hb := congrArg (fun x : Byte => x.getLsbD k) hlo
    simpa [hlt] using hb
  · have hb := congrArg (fun x : Byte => x.getLsbD (k - 16)) hhi
    simpa [show k - 16 < 8 by omega, Nat.add_sub_cancel' hge] using hb
  · have hb := congrArg (fun x : Word => x.getLsbD k) hkeep
    simp only [BitVec.getLsbD_and, hbit, Bool.and_true] at hb
    exact hb

/-! ## Runs -/

theorem csuSetCsl_runs {env : Env} {csl : Int} {p : Bool} {s s' : Sys} {w : List Event} {u : Unit}
    (h : Code.Runs (csuSetCsl env csl p) s w u s') :
    0 ≤ csl ∧ csl < maxCsl ∧ s' = { s with csu := s.csu.setCsl csl.toNat p } ∧ w = [.prot s'] := by
  simp only [csuSetCsl, runs_kassert_bind, Code.runs_require_bind, Code.runs_get_bind,
    Code.runs_modify_bind, runs_logProt] at h
  obtain ⟨-, ⟨hlo, hhi⟩, -, rfl, rfl⟩ := h
  exact ⟨hlo, hhi, rfl, rfl⟩

/-- `csu_set_csl` stops on a number that does not exist, and where a counter would become
negative. -/
theorem csuSetCsl_stops {env : Env} {csl : Int} {p : Bool} {s : Sys} {w : List Event} {e : Fault}
    (h : Code.Stops (csuSetCsl env csl p) s w e) : w = [] ∧
      ((¬ (0 ≤ csl ∧ csl < maxCsl) ∧ (e = .assertion ∨ e = .undefined)) ∨
        (p = false ∧ s.csu.counts csl.toNat < 1 ∧ e = .assertion)) := by
  simp only [csuSetCsl, stops_kassert_bind, Code.stops_require_bind, Code.stops_get_bind,
    Code.stops_modify_bind, stops_logProt] at h
  obtain ⟨-, hc, hw, he⟩ | ⟨-, ⟨hc, hw, he⟩ | ⟨hc, ⟨-, hneg, hw, he⟩ | ⟨-, h⟩⟩⟩ := h
  · exact ⟨hw, Or.inl ⟨hc, Or.inl he⟩⟩
  · exact ⟨hw, Or.inl ⟨hc, Or.inr he⟩⟩
  · rw [not_or] at hneg
    exact ⟨hw, Or.inr ⟨by simpa using hneg.1, by omega, he⟩⟩
  · exact h.elim

/-- Protecting a CSL that exists never stops. -/
theorem csuSetCsl_protect_total (env : Env) {csl : Int} (hlo : 0 ≤ csl) (hhi : csl < maxCsl) :
    Code.Total (csuSetCsl env csl true) := by
  intro s w e h
  obtain ⟨-, ⟨hno, -⟩ | ⟨hp, -⟩⟩ := csuSetCsl_stops h
  · exact hno ⟨hlo, hhi⟩
  · cases hp

/-! ## Initialisation -/

/-- The first loop of `csu_init`: the CSLs it visits end unprotected with a counter of zero, and
everything else is as it was. -/
theorem csuInitCsls_runs {env : Env} {cs : List Nat} {s s' : Sys} {w : List Event} {u : Unit}
    (h : Code.Runs (Code.forEach (fun c : Nat => do
      Code.modify fun s => { s with csu := { s.csu with counts := Function.update s.csu.counts c 1 } }
      csuSetCsl env c false) cs) s w u s') :
    s' = { s with csu := s'.csu } ∧
      (∀ n, s'.csu.counts n = if n ∈ cs then 0 else s.csu.counts n) ∧
      (∀ n, s'.csu.field n = if n ∈ cs then 0xFF else s.csu.field n) ∧
      s'.csu.spare = s.csu.spare := by
  induction cs generalizing s w with
  | nil =>
    obtain ⟨-, rfl⟩ := Code.runs_forEach_nil.mp h
    exact ⟨rfl, by simp, by simp, rfl⟩
  | cons c cs ih =>
    obtain ⟨w₁, s₁, w₂, h₁, h₂, rfl⟩ := Code.runs_forEach_cons.mp h
    rw [Code.runs_modify_bind] at h₁
    obtain ⟨-, -, hs₁, -⟩ := csuSetCsl_runs h₁
    rw [Int.toNat_natCast] at hs₁
    obtain ⟨hrest, hcounts, hfield, hbits⟩ := ih h₂
    have hcsu₁ : s₁.csu =
        ({ s.csu with counts := Function.update s.csu.counts c 1 } : Csu).setCsl c false := by
      rw [hs₁]
    refine ⟨?_, fun n => ?_, fun n => ?_, ?_⟩
    · rw [hrest, hs₁]
    · rw [hcounts, hcsu₁, setCsl_counts]
      by_cases hn : n = c <;> by_cases hmem : n ∈ cs <;> simp [hn, hmem]
    · rw [hfield, hcsu₁, setCsl_field]
      by_cases hn : n = c
      · subst hn
        simp
      · by_cases hmem : n ∈ cs <;> simp [hn, hmem, Csu.field]
    · rw [hbits, hcsu₁, setCsl_spare]
      rfl

/-- After `csu_init` nothing is protected, and the bits outside of the fields are as they were. -/
theorem csuInit_runs {env : Env} {mapped : Bool} {s s' : Sys} {w : List Event} {u : Unit}
    (h : Code.Runs (csuInit env mapped) s w u s') :
    s' = { s with csu := s'.csu } ∧ (∀ n < maxCsl, s'.csu.counts n = 0) ∧ s'.csu.Ok ∧
      s'.csu.spare = s.csu.spare := by
  rw [csuInit, Code.runs_require_bind] at h
  obtain ⟨w₁, _, s₁, w₂, h₁, h₂, rfl⟩ := Code.runs_bind.mp h.2
  have hsa : Code.Within (Code.forEach (fun m =>
      if m = 6 ∨ m = 15 then pure ()
      else Code.modify fun s : Sys => { s with csu := s.csu.setSa m false }) (List.range' 1 15) :
        Kernel Unit) (fun s _ s' => s' = { s with csu := { s.csu with sa := s'.csu.sa } }) := by
    refine Code.within_forEach ⟨fun _ => rfl, fun h h' => by rw [h', h]⟩ fun m _ => ?_
    refine Code.within_ite (Code.within_pure ⟨fun _ => rfl, fun h h' => by rw [h', h]⟩ ()) ?_
    exact Code.within_modify fun s => rfl
  have hs' := hsa h₂
  have hcsu : s'.csu = { s₁.csu with sa := s'.csu.sa } := congrArg Sys.csu hs'
  obtain ⟨hrest, hcounts, hfield, hbits⟩ := csuInitCsls_runs h₁
  have hzero : ∀ n < maxCsl, s'.csu.counts n = 0 := by
    intro n hn
    rw [hcsu]
    change s₁.csu.counts n = 0
    rw [hcounts, if_pos (List.mem_range.mpr hn)]
  refine ⟨?_, hzero, ⟨fun n hn => ?_, fun n hn => ?_⟩, ?_⟩
  · rw [hs', hrest]
  · exact Int.le_of_eq (hzero n hn).symm
  · rw [hzero n hn, hcsu]
    change s₁.csu.field n = _
    rw [hfield, if_pos (List.mem_range.mpr hn)]
    rfl
  · rw [hcsu, ← hbits]
    rfl

end SeCloak
