import SeCloak.Misc.Faults
import SeCloak.Mm.VaSpace

/-!
# The capacity of the memory map (`core_mmu.c:282-358`)

The table is an array of `num_elems` entries of which the first `last` are used; the entry behind them
ends the table. The loops compare the position they have reached with the size of the array, which is
the number of used entries only where the new entry goes to the end.
-/

namespace SeCloak
open Misc

/-! ## The array -/

/-- `memory_map` and `last`. The entries from `num_elems` on are what lies behind the array. -/
structure MapArray where
  entry : Nat → MmapRegion
  last : Nat

/-- Code that fills the array; an event is the index of an entry that is written. -/
abbrev MapCode := Code MapArray Nat Fault

/-- A store to the entry `n`. -/
def storeEntry (n : Nat) (f : (Nat → MmapRegion) → MmapRegion) : MapCode Unit := do
  Code.emit fun _ => n
  Code.modify fun s => { s with entry := Function.update s.entry n (f s.entry) }

/-- `memmove` of `count` entries from `n` one place up, the last one first. -/
def moveUp (n count : Nat) : MapCode Unit :=
  Code.forEach (fun i => storeEntry (n + i + 1) fun entry => entry (n + i)) (List.range count).reverse

/-- The new entry at the spot `n` (`core_mmu.c:322-329` and `core_mmu.c:352-357`). -/
def insertEntry (n : Nat) (r : MmapRegion) : MapCode Unit := do
  let s ← Code.get
  moveUp n (s.last - n)
  Code.modify fun s => { s with last := s.last + 1 }
  storeEntry n fun _ => r

/-- What the loops look for: an entry to coalesce with, or the spot of a new one. -/
inductive Spot where
  | coalesce (n : Nat)
  | insert (n : Nat)
  deriving DecidableEq

section Spot

variable (overlaps before : MmapRegion → Prop) [DecidablePred overlaps] [DecidablePred before]

/-- The loop from the entry `n` on; `room` is `num_elems - 1 - n`. -/
def findSpot (s : MapArray) : Nat → Nat → Option Spot
  | 0, _ => none
  | room + 1, n =>
    if n = s.last then some (.insert n)
    else if overlaps (s.entry n) then some (.coalesce n)
    else if before (s.entry n) then some (.insert n)
    else findSpot s room (n + 1)

/-- The two functions, which differ in what they compare. -/
def addEntry (coalesced : MmapRegion → MmapRegion) (r : MmapRegion) (numElems : Nat) : MapCode Unit := do
  let s ← Code.get
  match findSpot overlaps before s (numElems - 1) 0 with
  | none => Code.throw .panic
  | some (.coalesce n) => storeEntry n fun entry => coalesced (entry n)
  | some (.insert n) => insertEntry n r

end Spot

/-- `add_phys_mem` (`core_mmu.c:282-332`). -/
def addPhysMemTo (mem : PhysMem) : Nat → MapCode Unit :=
  addEntry (·.overlaps mem) (mem.before ·) (·.coalesce mem) mem.region

/-- `add_va_space` (`core_mmu.c:334-358`). -/
def addVaSpaceTo (type : MemType) (size : Word) : Nat → MapCode Unit :=
  addEntry (fun _ => False) (fun r => type.val < r.type.val) id { type := type, size := size }

/-! ## Stores -/

section Stores

variable {s s' : MapArray} {w : List Nat} {u : Unit} {n : Nat}

@[simp] theorem runs_storeEntry {f : (Nat → MmapRegion) → MmapRegion} :
    Code.Runs (storeEntry n f) s w u s' ↔
      w = [n] ∧ s' = { s with entry := Function.update s.entry n (f s.entry) } := by
  rw [storeEntry, Code.runs_emit_bind]
  simp only [Code.runs_modify]
  constructor
  · rintro ⟨_, ⟨rfl, rfl⟩, rfl⟩
    exact ⟨rfl, rfl⟩
  · rintro ⟨rfl, rfl⟩
    exact ⟨[], ⟨rfl, rfl⟩, rfl⟩

/-- The entries after the move. -/
def movedUp (entry : Nat → MmapRegion) (n count : Nat) : Nat → MmapRegion := fun k =>
  if n < k ∧ k ≤ n + count then entry (k - 1) else entry k

theorem runs_moveUp {count : Nat} : Code.Runs (moveUp n count) s w u s' ↔
    w = (List.range count).reverse.map (fun i => n + i + 1) ∧
      s' = { s with entry := movedUp s.entry n count } := by
  induction count generalizing s w with
  | zero =>
    have hsame : movedUp s.entry n 0 = s.entry := by
      funext k
      exact if_neg (by omega)
    rw [hsame]
    exact Code.runs_forEach_nil
  | succ count ih =>
    -- the highest entry moves first, and the lower ones are not changed by that
    have hstep : movedUp (Function.update s.entry (n + count + 1) (s.entry (n + count))) n count =
        movedUp s.entry n (count + 1) := by
      funext k
      unfold movedUp
      by_cases hk : k = n + count + 1
      · subst hk
        rw [if_neg (by omega), if_pos (by omega), Function.update_self]
        rfl
      · by_cases hmove : n < k ∧ k ≤ n + count
        · rw [if_pos hmove, if_pos (by omega), Function.update_of_ne (by omega)]
        · rw [if_neg hmove, if_neg (by omega), Function.update_of_ne hk]
    rw [moveUp, List.range_succ, List.reverse_append, List.reverse_singleton, List.singleton_append,
      List.map_cons]
    constructor
    · intro h
      obtain ⟨w₁, s₁, w₂, h₁, h₂, rfl⟩ := Code.runs_forEach_cons.mp h
      obtain ⟨rfl, rfl⟩ := runs_storeEntry.mp h₁
      obtain ⟨rfl, rfl⟩ := ih.mp h₂
      exact ⟨rfl, by rw [hstep]⟩
    · rintro ⟨rfl, rfl⟩
      refine Code.runs_forEach_cons.mpr ⟨[n + count + 1], _, _, runs_storeEntry.mpr ⟨rfl, rfl⟩,
        ih.mpr ⟨rfl, ?_⟩, rfl⟩
      rw [hstep]

/-- The table with the new entry at the spot `n`. -/
def MapArray.insertAt (s : MapArray) (n : Nat) (r : MmapRegion) : MapArray where
  entry := Function.update (movedUp s.entry n (s.last - n)) n r
  last := s.last + 1

/-- The entries that are written: those behind the spot, and the spot. -/
def insertWrites (last n : Nat) : List Nat := (List.range (last - n)).reverse.map (fun i => n + i + 1) ++ [n]

theorem runs_insertEntry {r : MmapRegion} : Code.Runs (insertEntry n r) s w u s' ↔
    w = insertWrites s.last n ∧ s' = s.insertAt n r := by
  rw [insertEntry, Code.runs_get_bind]
  constructor
  · intro h
    obtain ⟨w₁, _, s₁, w₂, h₁, h₂, rfl⟩ := Code.runs_bind.mp h
    obtain ⟨rfl, rfl⟩ := runs_moveUp.mp h₁
    rw [Code.runs_modify_bind, runs_storeEntry] at h₂
    obtain ⟨rfl, rfl⟩ := h₂
    exact ⟨rfl, rfl⟩
  · rintro ⟨rfl, rfl⟩
    refine Code.runs_bind.mpr ⟨_, (), _, [n], runs_moveUp.mpr ⟨rfl, rfl⟩, ?_, rfl⟩
    rw [Code.runs_modify_bind, runs_storeEntry]
    exact ⟨rfl, rfl⟩

theorem mem_insertWrites {last i : Nat} (h : n ≤ last) : i ∈ insertWrites last n ↔ n ≤ i ∧ i ≤ last := by
  unfold insertWrites
  rw [List.mem_append, List.mem_map, List.mem_singleton]
  constructor
  · rintro (⟨j, hj, rfl⟩ | rfl)
    · rw [List.mem_reverse, List.mem_range] at hj
      omega
    · omega
  · intro hi
    by_cases hin : i = n
    · exact Or.inr hin
    · exact Or.inl ⟨i - n - 1, by rw [List.mem_reverse, List.mem_range]; omega, by omega⟩

end Stores

/-! ## The spot -/

section Spot

variable {overlaps before : MmapRegion → Prop} [DecidablePred overlaps] [DecidablePred before]
  {s : MapArray} {room n k : Nat}

/-- An entry to coalesce with is a used one. -/
theorem findSpot_coalesce (hn : n ≤ s.last)
    (h : findSpot overlaps before s room n = some (.coalesce k)) : k < n + room ∧ k < s.last := by
  induction room generalizing n with
  | zero => cases h
  | succ room ih =>
    rw [findSpot] at h
    split at h
    · cases h
    rename_i hlast
    split at h
    · obtain rfl := Spot.coalesce.inj (Option.some.inj h)
      omega
    split at h
    · cases h
    · have hk := ih (by omega) h
      omega

/-- The spot of a new entry is behind the used entries, or in front of one that it comes before. -/
theorem findSpot_insert (hn : n ≤ s.last)
    (h : findSpot overlaps before s room n = some (.insert k)) :
    k < n + room ∧ n ≤ k ∧ k ≤ s.last ∧ (k < s.last →
      (∀ j, n ≤ j → j < k → ¬ overlaps (s.entry j) ∧ ¬ before (s.entry j)) ∧
        ¬ overlaps (s.entry k) ∧ before (s.entry k)) := by
  induction room generalizing n with
  | zero => cases h
  | succ room ih =>
    rw [findSpot] at h
    split at h
    · obtain rfl := Spot.insert.inj (Option.some.inj h)
      exact ⟨by omega, Nat.le_refl _, hn, fun hlt => by omega⟩
    rename_i hlast
    split at h
    · cases h
    rename_i hover
    split at h
    · rename_i hbefore
      obtain rfl := Spot.insert.inj (Option.some.inj h)
      exact ⟨by omega, Nat.le_refl _, hn, fun _ => ⟨fun j hj hj' => by omega, hover, hbefore⟩⟩
    · rename_i hbefore
      obtain ⟨hroom, hle, hlast', hspot⟩ := ih (by omega) h
      refine ⟨by omega, by omega, hlast', fun hlt => ?_⟩
      obtain ⟨hpass, hhere⟩ := hspot hlt
      refine ⟨fun j hj hjk => ?_, hhere⟩
      by_cases hjn : j = n
      · subst hjn
        exact ⟨hover, hbefore⟩
      · exact hpass j (by omega) hjk

/-- The scan stops at the first entry that the new one comes before. -/
theorem findSpot_of_before (hn : n ≤ k) (hroom : k < n + room) (hk : k < s.last)
    (hpass : ∀ j, n ≤ j → j < k → ¬ overlaps (s.entry j) ∧ ¬ before (s.entry j))
    (hover : ¬ overlaps (s.entry k)) (hbefore : before (s.entry k)) :
    findSpot overlaps before s room n = some (.insert k) := by
  induction room generalizing n with
  | zero => omega
  | succ room ih =>
    rw [findSpot, if_neg (by omega)]
    by_cases hnk : n = k
    · subst hnk
      rw [if_neg hover, if_pos hbefore]
    · obtain ⟨hover', hbefore'⟩ := hpass n (Nat.le_refl n) (by omega)
      rw [if_neg hover', if_neg hbefore']
      exact ih (by omega) (by omega) fun j hj => hpass j (by omega)

end Spot

/-! ## Additions -/

/-- A call of one of the two functions. -/
inductive Addition where
  | physMem (mem : PhysMem)
  | vaSpace (type : MemType) (size : Word)
  deriving DecidableEq

namespace Addition

/-- The entry is one to coalesce with. -/
def overlaps : Addition → MmapRegion → Prop
  | .physMem mem => (·.overlaps mem)
  | .vaSpace _ _ => fun _ => False

/-- The new entry comes before the entry. -/
def before : Addition → MmapRegion → Prop
  | .physMem mem => (mem.before ·)
  | .vaSpace type _ => fun r => type.val < r.type.val

instance (c : Addition) : DecidablePred c.overlaps := by
  cases c
  · exact fun r => inferInstanceAs (Decidable (r.overlaps _))
  · exact fun _ => inferInstanceAs (Decidable False)

instance (c : Addition) : DecidablePred c.before := by
  cases c
  · exact fun r => inferInstanceAs (Decidable (PhysMem.before _ r))
  · exact fun r => inferInstanceAs (Decidable (_ < r.type.val))

/-- The call, for a table of `numElems` entries. -/
def call : Addition → Nat → MapCode Unit
  | .physMem mem => addPhysMemTo mem
  | .vaSpace type size => addVaSpaceTo type size

/-- The call panics, or it writes inside of the table and leaves room for the terminator. -/
def Safe (numElems : Nat) (c : Addition) (s : MapArray) : Prop :=
  Code.Stops (c.call numElems) s [] .panic ∨
    ∃ w s', Code.Runs (c.call numElems) s w () s' ∧ (∀ i ∈ w, i < numElems) ∧ s'.last ≤ numElems - 1

/-- All entries but the one for the terminator are used, and the new entry goes in front of one of
them. -/
def Overfull (numElems : Nat) (c : Addition) (s : MapArray) : Prop :=
  s.last = numElems - 1 ∧ ∃ k < s.last,
    (∀ j < k, ¬ c.overlaps (s.entry j) ∧ ¬ c.before (s.entry j)) ∧
      ¬ c.overlaps (s.entry k) ∧ c.before (s.entry k)

end Addition

section Calls

variable (overlaps before : MmapRegion → Prop) [DecidablePred overlaps] [DecidablePred before]
  (coalesced : MmapRegion → MmapRegion) (r : MmapRegion) {numElems : Nat} {s : MapArray}

/-- What a call does, by the spot it finds. -/
theorem addEntry_eq :
    (findSpot overlaps before s (numElems - 1) 0 = none →
      Code.Stops (addEntry overlaps before coalesced r numElems) s [] .panic) ∧
    (∀ n, findSpot overlaps before s (numElems - 1) 0 = some (.coalesce n) →
      Code.Runs (addEntry overlaps before coalesced r numElems) s [n] ()
        { s with entry := Function.update s.entry n (coalesced (s.entry n)) }) ∧
    (∀ n, findSpot overlaps before s (numElems - 1) 0 = some (.insert n) →
      Code.Runs (addEntry overlaps before coalesced r numElems) s (insertWrites s.last n) ()
        (s.insertAt n r)) := by
  unfold addEntry
  refine ⟨fun h => ?_, fun n h => ?_, fun n h => ?_⟩
  · rw [Code.stops_get_bind, h]
    exact Code.stops_throw.mpr ⟨rfl, rfl⟩
  · rw [Code.runs_get_bind, h]
    exact runs_storeEntry.mpr ⟨rfl, rfl⟩
  · rw [Code.runs_get_bind, h]
    exact runs_insertEntry.mpr ⟨rfl, rfl⟩

/-- A call is safe unless it moves the last entry into the place of the terminator. -/
theorem addEntry_safe_iff (hnum : 2 ≤ numElems) (hlast : s.last ≤ numElems - 1) :
    (Code.Stops (addEntry overlaps before coalesced r numElems) s [] .panic ∨
      ∃ w s', Code.Runs (addEntry overlaps before coalesced r numElems) s w () s' ∧
        (∀ i ∈ w, i < numElems) ∧ s'.last ≤ numElems - 1) ↔
      ¬ (s.last = numElems - 1 ∧ ∃ k < s.last,
        (∀ j < k, ¬ overlaps (s.entry j) ∧ ¬ before (s.entry j)) ∧
          ¬ overlaps (s.entry k) ∧ before (s.entry k)) := by
  obtain ⟨hnone, hcoalesce, hinsert⟩ := @addEntry_eq overlaps before _ _ coalesced r numElems s
  constructor
  · rintro h ⟨hfull, k, hk, hpass, hover, hbefore⟩
    have hspot : findSpot overlaps before s (numElems - 1) 0 = some (.insert k) :=
      findSpot_of_before (Nat.zero_le k) (by omega) hk (fun j _ => hpass j) hover hbefore
    have hruns := hinsert k hspot
    rcases h with hstop | ⟨w, s', hrun, -, hroom⟩
    · exact Code.not_stops_of_runs hruns hstop
    · obtain ⟨-, -, rfl⟩ := hruns.unique hrun
      have hgrown : s.last + 1 ≤ numElems - 1 := hroom
      omega
  · intro h
    cases hspot : findSpot overlaps before s (numElems - 1) 0 with
    | none => exact Or.inl (hnone hspot)
    | some spot =>
      cases spot with
      | coalesce n =>
        obtain ⟨-, hn⟩ := findSpot_coalesce (Nat.zero_le _) hspot
        refine Or.inr ⟨[n], _, hcoalesce n hspot, fun i hi => ?_, hlast⟩
        obtain rfl := List.mem_singleton.mp hi
        omega
      | insert n =>
        obtain ⟨hroom, -, hn, hbefore⟩ := findSpot_insert (Nat.zero_le _) hspot
        refine Or.inr ⟨_, _, hinsert n hspot, fun i hi => ?_, ?_⟩
        · have hle := ((mem_insertWrites hn).mp hi).2
          omega
        · change s.last + 1 ≤ numElems - 1
          by_contra hfull
          have hlt : n < s.last := by omega
          obtain ⟨hpass, hover, hfirst⟩ := hbefore hlt
          exact h ⟨by omega, n, hlt, fun j hj => hpass j (Nat.zero_le j) hj, hover, hfirst⟩

/-- A call uses at most one more entry. -/
theorem addEntry_last_le {w : List Nat} {s' : MapArray}
    (h : Code.Runs (addEntry overlaps before coalesced r numElems) s w () s') : s'.last ≤ s.last + 1 := by
  obtain ⟨hnone, hcoalesce, hinsert⟩ := @addEntry_eq overlaps before _ _ coalesced r numElems s
  cases hspot : findSpot overlaps before s (numElems - 1) 0 with
  | none => exact absurd (hnone hspot) (Code.not_stops_of_runs h)
  | some spot =>
    cases spot with
    | coalesce n =>
      obtain ⟨-, -, rfl⟩ := h.unique (hcoalesce n hspot)
      exact Nat.le_succ _
    | insert n =>
      obtain ⟨-, -, rfl⟩ := h.unique (hinsert n hspot)
      exact Nat.le_refl _

end Calls

theorem Addition.last_le {numElems : Nat} {c : Addition} {s s' : MapArray} {w : List Nat}
    (h : Code.Runs (c.call numElems) s w () s') : s'.last ≤ s.last + 1 := by
  cases c with
  | physMem mem => exact addEntry_last_le (·.overlaps mem) (mem.before ·) (·.coalesce mem) mem.region h
  | vaSpace type size =>
    exact addEntry_last_le (fun _ => False) (fun r => type.val < r.type.val) id
      { type := type, size := size } h

theorem Addition.safe_iff {numElems : Nat} {c : Addition} {s : MapArray} (hnum : 2 ≤ numElems)
    (hlast : s.last ≤ numElems - 1) : c.Safe numElems s ↔ ¬ c.Overfull numElems s := by
  cases c with
  | physMem mem =>
    exact addEntry_safe_iff (·.overlaps mem) (mem.before ·) (·.coalesce mem) mem.region hnum hlast
  | vaSpace type size =>
    exact addEntry_safe_iff (fun _ => False) (fun r => type.val < r.type.val) id
      { type := type, size := size } hnum hlast

/-- Each call that is made has the property, in the state it is made in. After a panic there are no
more calls. -/
def EveryCall (numElems : Nat) (P : Addition → MapArray → Prop) : List Addition → MapArray → Prop
  | [], _ => True
  | c :: cs, s => P c s ∧ ∀ w s', Code.Runs (c.call numElems) s w () s' → EveryCall numElems P cs s'

/-- Safe calls keep the bound that makes the next one safe. -/
theorem everyCall_safe_iff_of_le {numElems : Nat} (hnum : 2 ≤ numElems) {calls : List Addition}
    {s : MapArray} (hlast : s.last ≤ numElems - 1) :
    EveryCall numElems (Addition.Safe numElems) calls s ↔
      EveryCall numElems (fun c s => ¬ c.Overfull numElems s) calls s := by
  induction calls generalizing s with
  | nil => exact Iff.rfl
  | cons c cs ih =>
    rw [EveryCall, EveryCall, Addition.safe_iff hnum hlast]
    refine and_congr_right fun hroom => ?_
    refine forall_congr' fun w => forall_congr' fun s' => forall_congr' fun hrun => ih ?_
    rcases (Addition.safe_iff hnum hlast).mpr hroom with hstop | ⟨w', t, hrun', -, ht⟩
    · exact absurd hstop (Code.not_stops_of_runs hrun)
    · obtain ⟨-, -, rfl⟩ := hrun.unique hrun'
      exact ht

/-- The calls that fill an empty table panic or stay inside of it if and only if none of them inserts
in front of an entry of a table that has no room left. -/
theorem everyCall_safe_iff (numElems : Nat) (hnum : 2 ≤ numElems) (calls : List Addition)
    (s : MapArray) (hs : s.last = 0) :
    EveryCall numElems (Addition.Safe numElems) calls s ↔
      EveryCall numElems (fun c s => ¬ c.Overfull numElems s) calls s :=
  everyCall_safe_iff_of_le hnum (by omega)

/-- An array that has not been filled. -/
def emptyArray : MapArray := ⟨fun _ => { type := .notype }, 0⟩

/-- The memory of the TEE, and a range below it. -/
def upperMem : PhysMem := ⟨.teeRam, 0x4E000000, 0x00100000⟩
def lowerMem : PhysMem := ⟨.teeRam, 0x4D000000, 0x00100000⟩

/-- Fewer calls than there is room for never meet a full table. -/
theorem everyCall_of_length_lt {numElems : Nat} {calls : List Addition} {s : MapArray}
    (h : s.last + calls.length < numElems) :
    EveryCall numElems (fun c s => ¬ c.Overfull numElems s) calls s := by
  induction calls generalizing s with
  | nil => trivial
  | cons c cs ih =>
    rw [List.length_cons] at h
    refine ⟨fun hfull => ?_, fun w s' hrun => ih ?_⟩
    · have hlast := hfull.1
      omega
    · have hlast := Addition.last_le hrun
      omega

/-- Two ranges and a reserved one fit into four entries, in any order. -/
theorem everyCall_safe_three :
    EveryCall 4 (Addition.Safe 4)
      [.physMem upperMem, .physMem lowerMem, .vaSpace .resVaspace 0x00A00000] emptyArray :=
  (everyCall_safe_iff 4 (by decide) _ emptyArray rfl).mpr (everyCall_of_length_lt (by decide))

/-- An array of two entries has room for one and the terminator. The range below the first one moves it
into the second place, and the terminator goes behind the array. -/
theorem not_everyCall_safe :
    ((Code.forEach (Addition.call · 2) [.physMem upperMem, .physMem lowerMem]).out emptyArray).map
        (fun x => x.2.last) = some 2 ∧
      ¬ EveryCall 2 (Addition.Safe 2) [.physMem upperMem, .physMem lowerMem] emptyArray := by
  refine ⟨rfl, fun h => ?_⟩
  have hfirst : Code.Runs ((Addition.physMem upperMem).call 2) emptyArray _ () _ :=
    (addEntry_eq (·.overlaps upperMem) (upperMem.before ·) (·.coalesce upperMem) upperMem.region).2.2 0
      rfl
  have hsecond := (Addition.safe_iff (by decide) (by decide)).mp (h.2 _ _ hfirst).1
  refine hsecond ⟨rfl, 0, by decide, fun j hj => absurd hj (Nat.not_lt_zero j), ?_, ?_⟩ <;> decide

/-! ## The list of the entries -/

/-- The used entries from `n` on. -/
def MapArray.tableFrom (s : MapArray) (n : Nat) : List MmapRegion :=
  (List.range' n (s.last - n)).map s.entry

/-- The used entries. -/
def MapArray.table (s : MapArray) : List MmapRegion := s.tableFrom 0

section Table

variable {s s' : MapArray} {n k : Nat} {r x : MmapRegion}

theorem tableFrom_last (h : s.last ≤ n) : s.tableFrom n = [] := by
  rw [MapArray.tableFrom, Nat.sub_eq_zero_of_le h]
  rfl

theorem tableFrom_cons (h : n < s.last) : s.tableFrom n = s.entry n :: s.tableFrom (n + 1) := by
  have hlen : s.last - n = s.last - (n + 1) + 1 := by omega
  rw [MapArray.tableFrom, hlen, List.range'_succ, List.map_cons]
  rfl

theorem getElem?_table (i : Nat) : s.table[i]? = if i < s.last then some (s.entry i) else none := by
  rw [MapArray.table, MapArray.tableFrom, List.getElem?_map, Nat.sub_zero]
  split
  · rename_i h
    rw [List.getElem?_range' h]
    simp
  · rename_i h
    rw [List.getElem?_eq_none (by rw [List.length_range']; omega)]
    rfl

theorem length_table : s.table.length = s.last := by
  rw [MapArray.table, MapArray.tableFrom, List.length_map, List.length_range', Nat.sub_zero]

theorem table_update : ({ s with entry := Function.update s.entry n x } : MapArray).table = s.table.set n x := by
  apply List.ext_getElem?
  intro i
  rw [getElem?_table, List.getElem?_set, getElem?_table, length_table]
  by_cases hin : i = n
  · subst hin
    simp
  · simp [hin, Ne.symm hin]

theorem table_insertAt (h : n ≤ s.last) : (s.insertAt n r).table = s.table.insertIdx n r := by
  apply List.ext_getElem?
  intro i
  rw [getElem?_table, List.getElem?_insertIdx, getElem?_table, getElem?_table, length_table]
  unfold MapArray.insertAt movedUp
  dsimp only
  rcases Nat.lt_trichotomy i n with hlt | rfl | hgt
  · have hi : i < s.last + 1 := by omega
    rw [if_pos hi, if_pos hlt, Function.update_of_ne (by omega), if_neg (by omega), if_pos (by omega)]
  · have hi : i < s.last + 1 := by omega
    rw [if_pos hi, if_neg (Nat.lt_irrefl i), if_pos rfl, Function.update_self, if_pos h]
  · rw [if_neg (Nat.lt_asymm hgt), if_neg (Nat.ne_of_gt hgt), Function.update_of_ne (Nat.ne_of_gt hgt)]
    by_cases hi : i < s.last + 1
    · rw [if_pos hi, if_pos (by omega), if_pos (by omega)]
    · rw [if_neg hi, if_neg (by omega)]

end Table

section Scan

variable {overlaps before : MmapRegion → Prop} [DecidablePred overlaps] [DecidablePred before]
  {coalesced : MmapRegion → MmapRegion} {r : MmapRegion} {numElems : Nat}
  (scan : Nat → List MmapRegion → Except Fault (List MmapRegion))

/-- A scan of the list of the entries finds the same spot as the scan of the array. -/
theorem scan_tableFrom
    (hnil : ∀ n, scan n [] = if numElems - 1 ≤ n then .error .panic else .ok [r])
    (hcons : ∀ n x xs, scan n (x :: xs) = if numElems - 1 ≤ n then .error .panic
      else if overlaps x then .ok (coalesced x :: xs)
      else if before x then .ok (r :: x :: xs)
      else (scan (n + 1) xs).map (x :: ·)) {s : MapArray} {room n : Nat} (hn : n ≤ s.last)
    (hroom : room = numElems - 1 - n) :
    (findSpot overlaps before s room n = none → scan n (s.tableFrom n) = .error .panic) ∧
    (∀ k, findSpot overlaps before s room n = some (.coalesce k) → n ≤ k ∧
      scan n (s.tableFrom n) = .ok ((s.tableFrom n).set (k - n) (coalesced (s.entry k)))) ∧
    (∀ k, findSpot overlaps before s room n = some (.insert k) → n ≤ k ∧
      scan n (s.tableFrom n) = .ok ((s.tableFrom n).insertIdx (k - n) r)) := by
  induction room generalizing n with
  | zero =>
    refine ⟨fun _ => ?_, fun k h => (by cases h), fun k h => by cases h⟩
    cases s.tableFrom n with
    | nil => rw [hnil, if_pos (by omega)]
    | cons x xs => rw [hcons, if_pos (by omega)]
  | succ room ih =>
    have hfits : ¬ numElems - 1 ≤ n := by omega
    rw [findSpot]
    by_cases hlast : n = s.last
    · rw [if_pos hlast, tableFrom_last (by omega), hnil, if_neg hfits]
      refine ⟨fun h => (Option.some_ne_none _ h).elim, fun k h => (by cases h), fun k h => ?_⟩
      obtain rfl := Spot.insert.inj (Option.some.inj h)
      rw [Nat.sub_self]
      exact ⟨Nat.le_refl _, rfl⟩
    rw [if_neg hlast, tableFrom_cons (by omega), hcons, if_neg hfits]
    by_cases hover : overlaps (s.entry n)
    · rw [if_pos hover, if_pos hover]
      refine ⟨fun h => (Option.some_ne_none _ h).elim, fun k h => ?_, fun k h => by cases h⟩
      obtain rfl := Spot.coalesce.inj (Option.some.inj h)
      rw [Nat.sub_self]
      exact ⟨Nat.le_refl _, rfl⟩
    rw [if_neg hover, if_neg hover]
    by_cases hbefore : before (s.entry n)
    · rw [if_pos hbefore, if_pos hbefore]
      refine ⟨fun h => (Option.some_ne_none _ h).elim, fun k h => (by cases h), fun k h => ?_⟩
      obtain rfl := Spot.insert.inj (Option.some.inj h)
      rw [Nat.sub_self]
      exact ⟨Nat.le_refl _, rfl⟩
    rw [if_neg hbefore, if_neg hbefore]
    obtain ⟨hnone, hcoalesce, hinsert⟩ := ih (n := n + 1) (by omega) (by omega)
    refine ⟨fun h => ?_, fun k h => ?_, fun k h => ?_⟩
    · rw [hnone h]
      rfl
    · obtain ⟨hle, hk⟩ := hcoalesce k h
      have hsub : k - n = k - (n + 1) + 1 := by omega
      rw [hk, hsub]
      exact ⟨by omega, rfl⟩
    · obtain ⟨hle, hk⟩ := hinsert k h
      have hsub : k - n = k - (n + 1) + 1 := by omega
      rw [hk, hsub]
      exact ⟨by omega, rfl⟩

/-- The call on the array is the scan of the list. -/
theorem scan_table
    (hnil : ∀ n, scan n [] = if numElems - 1 ≤ n then .error .panic else .ok [r])
    (hcons : ∀ n x xs, scan n (x :: xs) = if numElems - 1 ≤ n then .error .panic
      else if overlaps x then .ok (coalesced x :: xs)
      else if before x then .ok (r :: x :: xs)
      else (scan (n + 1) xs).map (x :: ·)) (s : MapArray) :
    (∀ w s', Code.Runs (addEntry overlaps before coalesced r numElems) s w () s' →
      scan 0 s.table = .ok s'.table) ∧
    (∀ w e, Code.Stops (addEntry overlaps before coalesced r numElems) s w e →
      scan 0 s.table = .error .panic) := by
  obtain ⟨hnone, hcoalesce, hinsert⟩ := @addEntry_eq overlaps before _ _ coalesced r numElems s
  obtain ⟨hnone', hcoalesce', hinsert'⟩ := scan_tableFrom scan hnil hcons (s := s) (n := 0)
    (Nat.zero_le _) rfl
  cases hspot : findSpot overlaps before s (numElems - 1) 0 with
  | none =>
    refine ⟨fun w s' h => ?_, fun _ _ _ => hnone' hspot⟩
    exact absurd (hnone hspot) (Code.not_stops_of_runs h)
  | some spot =>
    cases spot with
    | coalesce k =>
      obtain ⟨-, hlist⟩ := hcoalesce' k hspot
      refine ⟨fun w s' h => ?_, fun w e h => absurd h (Code.not_stops_of_runs (hcoalesce k hspot))⟩
      obtain ⟨-, -, rfl⟩ := (hcoalesce k hspot).unique h
      rw [table_update]
      exact hlist
    | insert k =>
      obtain ⟨-, hlist⟩ := hinsert' k hspot
      obtain ⟨-, -, hk, -⟩ := findSpot_insert (Nat.zero_le _) hspot
      refine ⟨fun w s' h => ?_, fun w e h => absurd h (Code.not_stops_of_runs (hinsert k hspot))⟩
      obtain ⟨-, -, rfl⟩ := (hinsert k hspot).unique h
      rw [table_insertAt hk]
      exact hlist

end Scan

/-- `addPhysMem` is `add_phys_mem` on the array, seen as the list of the used entries. -/
theorem addPhysMem_table (numElems : Nat) (mem : PhysMem) (s : MapArray) :
    (∀ w s', Code.Runs (addPhysMemTo mem numElems) s w () s' →
      addPhysMem numElems mem s.table = .ok s'.table) ∧
    (∀ w e, Code.Stops (addPhysMemTo mem numElems) s w e →
      addPhysMem numElems mem s.table = .error .panic) :=
  scan_table (addPhysMemFrom numElems mem) (fun _ => rfl) (fun _ _ _ => rfl) s

/-- `addVaSpace` is `add_va_space` on `static_memory_map`. -/
theorem addVaSpace_table (type : MemType) (size : Word) (s : MapArray) :
    (∀ w s', Code.Runs (addVaSpaceTo type size mmapEntries) s w () s' →
      addVaSpace type size s.table = .ok s'.table) ∧
    (∀ w e, Code.Stops (addVaSpaceTo type size mmapEntries) s w e →
      addVaSpace type size s.table = .error .panic) :=
  scan_table (addVaSpaceFrom type size) (fun _ => rfl)
    (fun n x xs => by rw [addVaSpaceFrom, if_neg (not_false : ¬ False)]) s

end SeCloak
