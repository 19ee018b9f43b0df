import Mathlib.Data.List.TakeWhile
import SeCloak.Drivers.FbParams

/-!
# The bytes that drawing writes

The size of the screen comes from CPMEM, which the non-secure world programs. Both drawing loops
stay inside of the `3 * width * height` bytes that this size asks for, and clearing the screen
writes the last of them. Nothing compares the size with the memory that is reserved for the
framebuffer.
-/

namespace SeCloak
open Misc

/-- The number of bytes of the screen. -/
def FbInfo.bytes (info : FbInfo) : Nat := 3 * (info.width.toNat * info.height.toNat)

/-- A size as it is read from the two fields of CPMEM. -/
structure FbInfo.Sized (info : FbInfo) : Prop where
  stride : info.stride = info.width * 3
  width_pos : 0 < info.width.toNat
  width_le : info.width.toNat ≤ 2 ^ 13
  height_pos : 0 < info.height.toNat
  height_le : info.height.toNat ≤ 2 ^ 12

/-- The screen is mapped and fits into its memory. -/
structure FbInfo.Fits (info : FbInfo) : Prop where
  buffer : info.buffer.isSome = true
  bytes : info.bytes ≤ info.room

theorem fbInfoOf_sized (env : Env) (m : Nat → Word) : (fbInfoOf env m).Sized where
  stride := rfl
  width_pos := readWidth_pos m
  width_le := by
    have hread := readWidth_lt m
    change (ipuChParamReadField m ipuChan0 0 125 13 + 1).toNat ≤ 2 ^ 13
    rw [BitVec.toNat_add, show (1 : Word).toNat = 1 from rfl]
    omega
  height_pos := readHeight_pos m
  height_le := by
    have hread := readHeight_lt m
    change (ipuChParamReadField m ipuChan0 0 138 12 + 1).toNat ≤ 2 ^ 12
    rw [BitVec.toNat_add, show (1 : Word).toNat = 1 from rfl]
    omega

/-- The event is no byte drawn at or behind the offset `n`. -/
def PixelBelow (n : Nat) (e : Event) : Prop :=
  ∀ pa, e = .pixel pa → fbmemStart.toNat ≤ pa ∧ pa < fbmemStart.toNat + n

/-- `P` allows the events of drawing on a screen: the bytes inside of it, and images. -/
structure FbInfo.Draws (info : FbInfo) (P : Event → Prop) : Prop where
  pixel : ∀ offset, info.buffer.isSome = true → offset < info.bytes →
    P (.pixel (fbmemStart.toNat + offset))
  blit : ∀ x y b, P (.blit x y b)

theorem pixelBelow_draws {info : FbInfo} {n : Nat}
    (hn : info.buffer.isSome = true → info.bytes ≤ n) : info.Draws (PixelBelow n) where
  pixel offset hbuf hlt pa hpa := by
    have hle := hn hbuf
    cases hpa
    omega
  blit x y b pa hpa := by cases hpa

section Draw

variable {env : Env} {info : FbInfo} {P : Event → Prop}

/-! ## Offsets -/

theorem FbInfo.Sized.stride_eq (h : info.Sized) : info.stride.toNat = 3 * info.width.toNat := by
  have hle := h.width_le
  rw [h.stride, BitVec.toNat_mul, show (3 : Word).toNat = 3 from rfl]
  omega

/-- The start of a line; nothing overflows. -/
theorem FbInfo.Sized.line (h : info.Sized) {y : Word} (hy : y.toNat < info.height.toNat) :
    (info.stride * y).toNat = 3 * (info.width.toNat * y.toNat) := by
  have hwy : info.width.toNat * y.toNat ≤ 2 ^ 13 * 2 ^ 12 :=
    Nat.mul_le_mul h.width_le (Nat.le_trans (Nat.le_of_lt hy) h.height_le)
  have hw3 : (info.width * 3#32).toNat = 3 * info.width.toNat := by
    have := h.width_le
    rw [BitVec.toNat_mul, show (3#32).toNat = 3 from rfl]
    omega
  rw [h.stride, BitVec.toNat_mul, show info.width * 3 = info.width * 3#32 from rfl, hw3,
    Nat.mul_assoc]
  omega

/-- A byte `k` of line `y` is inside of the screen. -/
theorem FbInfo.Sized.offset_lt (h : info.Sized) {y : Word} {k : Nat}
    (hy : y.toNat < info.height.toNat) (hk : k < 3 * info.width.toNat) :
    (info.stride * y).toNat + k < info.bytes := by
  have hnext : info.width.toNat * (y.toNat + 1) ≤ info.width.toNat * info.height.toNat :=
    Nat.mul_le_mul_left _ hy
  rw [h.line hy]
  unfold FbInfo.bytes
  rw [Nat.mul_succ] at hnext
  omega

theorem ofNat_lt_height (h : info.Sized) {y : Nat} (hy : y < info.height.toNat) :
    (BitVec.ofNat 32 y).toNat = y := by
  have := h.height_le
  rw [BitVec.toNat_ofNat]
  omega

/-- The part of an image that `fb_blit` copies of each line ends at the border of the screen. -/
theorem copyPerLine_le (h : info.Sized) {x : Word} {image : Image} (hx : x < info.width)
    (himg : image.width.toNat ≤ 2 ^ 16) :
    (if info.width < x + image.width then 3 * (info.width - x) else 3 * image.width).toNat +
      3 * x.toNat ≤ 3 * info.width.toNat := by
  have hw := h.width_le
  have hx' : x.toNat < info.width.toNat := hx
  have hsum : (x + image.width).toNat = x.toNat + image.width.toNat := by
    rw [BitVec.toNat_add]
    omega
  have hthree : (3 : Word).toNat = 3 := rfl
  split
  · rw [BitVec.toNat_mul, BitVec.toNat_sub_of_le (Nat.le_of_lt hx'), hthree]
    omega
  · rename_i hle
    have hle' : x.toNat + image.width.toNat ≤ info.width.toNat := by
      rw [← hsum]
      exact Nat.not_lt.mp hle
    rw [BitVec.toNat_mul, hthree]
    omega

theorem FbInfo.Sized.blit_offset_lt (h : info.Sized) {x y : Word} {image : Image} {k : Nat}
    (hx : x < info.width) (hy : y < info.height) (himg : image.width.toNat ≤ 2 ^ 16)
    (hk : k < (if info.width < x + image.width then 3 * (info.width - x)
      else 3 * image.width).toNat) :
    (info.stride * y).toNat + (3 * x).toNat + k < info.bytes := by
  have hcopy := copyPerLine_le h hx himg
  have hw := h.width_le
  have hx' : x.toNat < info.width.toNat := hx
  have hthree : (3 : Word).toNat = 3 := rfl
  have h3x : (3 * x).toNat = 3 * x.toNat := by
    rw [BitVec.toNat_mul, hthree]
    omega
  rw [h3x, Nat.add_assoc]
  exact h.offset_lt hy (by omega)

/-! ## Stores -/

/-- A store through NULL does not get as far as the framebuffer. -/
theorem fbStore_emits {offset : Nat} {b : Byte}
    (h : info.buffer.isSome = true → P (.pixel (fbmemStart.toNat + offset))) :
    Code.Emits P (fbStore info offset b) := by
  intro s e he
  obtain he | ⟨_, _, s₁, h₁, he⟩ := Code.mem_events_bind.mp he
  · exact (Code.emits_require (P := fun _ => False) _ s e he).elim
  obtain ⟨-, -, hbuf⟩ := Code.runs_require.mp h₁
  obtain he | ⟨_, _, s₂, -, he⟩ := Code.mem_events_bind.mp he
  · rw [List.mem_singleton.mp he]
    exact h hbuf
  · have hrest : Code.Emits (fun _ => False) (do
        Code.require (offset < info.room) .undefined
        Code.modify fun s => { s with fb := { s.fb with
          mem := Function.update s.fb.mem offset b } } : Kernel Unit) :=
      Code.emits_bind (Code.emits_require _) fun _ => Code.emits_modify _
    exact (hrest s₂ e he).elim

theorem fbStore_stops {offset : Nat} {b : Byte} {s : Sys} {w : List Event} {e : Fault}
    (h : Code.Stops (fbStore info offset b) s w e) :
    info.buffer.isSome = false ∨
      (info.room ≤ offset ∧ w = [.pixel (fbmemStart.toNat + offset)]) := by
  rw [fbStore, Code.stops_require_bind] at h
  obtain ⟨hbuf, -, -⟩ | ⟨-, h⟩ := h
  · exact Or.inl (by simpa using hbuf)
  obtain k | ⟨w₁, _, s₁, w₂, h₁, h₂, rfl⟩ := Code.stops_bind.mp h
  · exact absurd k Code.stops_emit
  obtain ⟨rfl, rfl⟩ := Code.runs_emit.mp h₁
  rw [Code.stops_require_bind] at h₂
  obtain ⟨hlt, rfl, -⟩ | ⟨-, k⟩ := h₂
  · exact Or.inr ⟨Nat.not_lt.mp hlt, rfl⟩
  · exact absurd k Code.stops_modify

theorem fbStore_total (hfit : info.Fits) {offset : Nat} {b : Byte} (h : offset < info.bytes) :
    Code.Total (fbStore info offset b) := by
  intro s w e hstop
  rcases fbStore_stops hstop with hbuf | ⟨hle, -⟩
  · rw [hfit.buffer] at hbuf
    cases hbuf
  · have := hfit.bytes
    omega

/-! ## Clearing -/

/-- The three bytes of a pixel are inside of the screen. -/
theorem FbInfo.Sized.pixel_lt (h : info.Sized) {x y c : Nat} (hx : x < info.width.toNat)
    (hy : y < info.height.toNat) (hc : c < 3) :
    (info.stride * BitVec.ofNat 32 y).toNat + 3 * x + c < info.bytes := by
  rw [Nat.add_assoc]
  exact h.offset_lt (by rwa [ofNat_lt_height h hy]) (by omega)

theorem fbClear_emits (h : info.Sized) (hP : info.Draws P) {r g b : Byte} :
    Code.Emits P (fbClear info r g b) := by
  refine Code.emits_forEach fun y hy => Code.emits_forEach fun x hx => ?_
  rw [List.mem_range] at hy hx
  have hpixel : ∀ c < 3, info.buffer.isSome = true →
      P (.pixel (fbmemStart.toNat + ((info.stride * BitVec.ofNat 32 y).toNat + 3 * x + c))) :=
    fun c hc hbuf => hP.pixel _ hbuf (h.pixel_lt hx hy hc)
  refine Code.emits_bind (fbStore_emits (hpixel 0 (by decide))) fun _ => ?_
  refine Code.emits_bind (fbStore_emits (hpixel 1 (by decide))) fun _ => ?_
  exact fbStore_emits (hpixel 2 (by decide))

theorem fbClear_total (h : info.Sized) (hfit : info.Fits) {r g b : Byte} :
    Code.Total (fbClear info r g b) := by
  refine Code.total_forEach fun y hy => Code.total_forEach fun x hx => ?_
  rw [List.mem_range] at hy hx
  refine Code.total_bind (fbStore_total hfit ?_) fun _ => ?_
  · exact h.pixel_lt hx hy (c := 0) (by decide)
  · refine Code.total_bind (fbStore_total hfit (h.pixel_lt hx hy (by decide))) fun _ => ?_
    exact fbStore_total hfit (h.pixel_lt hx hy (by decide))

/-- A screen that was cleared fits: its last byte was written. -/
theorem fbClear_fits (h : info.Sized) {r g b : Byte} {s s' : Sys} {w : List Event} {u : Unit}
    (hrun : Code.Runs (fbClear info r g b) s w u s') : info.Fits := by
  have hbuf := fbClear_buffer h.width_pos h.height_pos hrun
  have hy : info.height.toNat - 1 < info.height.toNat := Nat.sub_one_lt (Nat.ne_of_gt h.height_pos)
  have hx : info.width.toNat - 1 < info.width.toNat := Nat.sub_one_lt (Nat.ne_of_gt h.width_pos)
  obtain ⟨_, _, _, hline⟩ := Code.runs_forEach_mem hrun (List.mem_range.mpr hy)
  obtain ⟨_, _, _, hpixel⟩ := Code.runs_forEach_mem hline (List.mem_range.mpr hx)
  obtain ⟨_, _, _, _, -, h₂, -⟩ := Code.runs_bind.mp hpixel
  obtain ⟨_, _, _, _, -, h₃, -⟩ := Code.runs_bind.mp h₂
  obtain ⟨-, hlt, -, -⟩ := fbStore_runs h₃
  refine ⟨hbuf, ?_⟩
  rw [h.line (by rwa [ofNat_lt_height h hy]), ofNat_lt_height h hy] at hlt
  unfold FbInfo.bytes
  have hlast : info.width.toNat * info.height.toNat =
      info.width.toNat * (info.height.toNat - 1) + info.width.toNat := by
    rw [← Nat.mul_succ]
    congr 1
    omega
  omega

/-- Clearing a screen that is mapped but does not fit writes a byte behind its memory. -/
theorem fbClear_stops {r g b : Byte} {s : Sys} {w : List Event} {e : Fault}
    (hbuf : info.buffer.isSome = true) (hstop : Code.Stops (fbClear info r g b) s w e) :
    ∃ pa, .pixel pa ∈ w ∧ fbmemStart.toNat + info.room ≤ pa := by
  have hstore : ∀ {offset b s w e}, Code.Stops (fbStore info offset b) s w e →
      ∃ pa, Event.pixel pa ∈ w ∧ fbmemStart.toNat + info.room ≤ pa := by
    intro offset b s w e h
    rcases fbStore_stops h with hnone | ⟨hle, rfl⟩
    · rw [hbuf] at hnone
      cases hnone
    · exact ⟨_, List.mem_singleton_self _, by omega⟩
  have hmono : ∀ {w₁ w₂ : List Event},
      (∃ pa, Event.pixel pa ∈ w₂ ∧ fbmemStart.toNat + info.room ≤ pa) →
        ∃ pa, Event.pixel pa ∈ w₁ ++ w₂ ∧ fbmemStart.toNat + info.room ≤ pa := by
    rintro w₁ w₂ ⟨pa, hmem, hle⟩
    exact ⟨pa, List.mem_append_right w₁ hmem, hle⟩
  obtain ⟨y, -, _, _, _, hline, rfl⟩ := Code.stops_forEach_mem hstop
  obtain ⟨x, -, _, _, _, hpixel, rfl⟩ := Code.stops_forEach_mem hline
  refine hmono (hmono ?_)
  obtain k | ⟨_, _, _, _, -, h₂, rfl⟩ := Code.stops_bind.mp hpixel
  · exact hstore k
  obtain k | ⟨_, _, _, _, -, h₃, rfl⟩ := Code.stops_bind.mp h₂
  · exact hmono (hstore k)
  · exact hmono (hmono (hstore h₃))

/-! ## Images -/

/-- No image of the kernel is wider. -/
def Image.Small (image : Image) : Prop := image.width.toNat ≤ 2 ^ 16

theorem fbBlit_emits (h : info.Sized) (hP : info.Draws P) {x y : Word} {image : Image}
    (himg : image.Small) : Code.Emits P (fbBlit env info x y image) := by
  unfold fbBlit Code.runIf
  split
  · rename_i hxy
    refine Code.emits_forEach fun i hi => Code.emits_forEach fun k hk => fbStore_emits fun hbuf => ?_
    have hy : y + BitVec.ofNat 32 i < info.height := by
      simpa using List.mem_takeWhile_imp hi
    exact hP.pixel _ hbuf (h.blit_offset_lt hxy.1 hy himg (List.mem_range.mp hk))
  · exact Code.emits_pure ()

theorem fbBlit_total (h : info.Sized) (hfit : info.Fits) {x y : Word} {image : Image}
    (himg : image.Small) : Code.Total (fbBlit env info x y image) := by
  refine Code.total_runIf fun hxy => ?_
  refine Code.total_forEach fun n hn => Code.total_forEach fun k hk => ?_
  have hy : y + BitVec.ofNat 32 n < info.height := by
    simpa using List.mem_takeWhile_imp hn
  exact fbStore_total hfit (h.blit_offset_lt hxy.1 hy himg (List.mem_range.mp hk))

theorem fbBlitImage_emits (h : info.Sized) (hP : info.Draws P) {x y : Word} {image : Image}
    (himg : image.Small) : Code.Emits P (fbBlitImage env info x y image) := by
  refine Code.emits_bind (fun s e he => ?_) fun _ => fbBlit_emits h hP himg
  rw [List.mem_singleton.mp he]
  exact hP.blit _ _ _

theorem fbBlitImage_total (h : info.Sized) (hfit : info.Fits) {x y : Word} {image : Image}
    (himg : image.Small) : Code.Total (fbBlitImage env info x y image) :=
  Code.total_bind (fun _ _ _ => Code.stops_emit) fun _ => fbBlit_total h hfit himg

end Draw

/-! ## Acquire and release -/

/-- The display can be drawn on: CPMEM is mapped, and the screen that it describes fits. -/
def Sys.DisplayReady (env : Env) (s : Sys) : Prop :=
  s.fb.cpmemVaddr.isSome = true ∧ (fbInfoOf env s.fb.cpmem).Fits

theorem fbClear_undefined {info : FbInfo} {r g b : Byte} {s : Sys} {w : List Event} {e : Fault}
    (h : Code.Stops (fbClear info r g b) s w e) : e = .undefined := by
  have hstore : ∀ offset b, Code.StopsOnly (fun _ => True) (fun _ e => e = .undefined)
      (fbStore info offset b) := by
    intro offset b
    refine ⟨fun u w e _ hs => ?_, fun _ _ _ _ _ _ => trivial, fun _ _ _ _ _ _ _ he => he⟩
    rw [fbStore, Code.stops_require_bind] at hs
    obtain ⟨-, -, he⟩ | ⟨-, hs⟩ := hs
    · exact he
    obtain k | ⟨_, _, _, _, -, k, -⟩ := Code.stops_bind.mp hs
    · exact absurd k Code.stops_emit
    · rw [Code.stops_require_bind] at k
      obtain ⟨-, -, he⟩ | ⟨-, k⟩ := k
      · exact he
      · exact absurd k Code.stops_modify
  refine (Code.stopsOnly_forEach (I := fun _ => True) (Q := fun _ e => e = .undefined)
    fun y _ => Code.stopsOnly_forEach fun x _ => ?_).stops trivial h
  refine Code.stopsOnly_bind (hstore _ _) fun _ => ?_
  exact Code.stopsOnly_bind (hstore _ _) fun _ => hstore _ _

/-- A loop over CPMEM stops only where it is not mapped. -/
theorem modifyCpmems_stops {β : Type} {write : β → Kernel Unit}
    (hwrite : ∀ x, ∃ f, write x = modifyCpmem f) {xs : List β} {s : Sys} {w : List Event} {e : Fault}
    (h : Code.Stops (Code.forEach write xs) s w e) :
    ¬ s.fb.cpmemVaddr.isSome = true ∧ e = .undefined := by
  refine (Code.stopsOnly_forEach (I := fun _ => True)
    (Q := fun s e => ¬ s.fb.cpmemVaddr.isSome = true ∧ e = .undefined) fun x _ => ?_).stops trivial h
  obtain ⟨f, hf⟩ := hwrite x
  rw [hf]
  refine ⟨fun u w e _ hs => ?_, fun _ _ _ _ _ _ => trivial, fun u w a u' e _ hr hq => ?_⟩
  · rw [modifyCpmem, Code.stops_get_bind, Code.stops_require_bind] at hs
    obtain ⟨hmap, -, he⟩ | ⟨-, hs⟩ := hs
    · exact ⟨hmap, he⟩
    · exact absurd hs Code.stops_modify
  · obtain ⟨-, hmap, rfl⟩ := modifyCpmem_runs hr
    exact absurd hmap hq.1

/-- A display that was taken can be drawn on. -/
theorem fbAcquire_fits {env : Env} {r g b : Byte} {s s' : Sys} {w : List Event}
    {res : Option FbInfo} (h : Code.Runs (fbAcquire env r g b) s w res s') :
    (fbInfoOf env s.fb.cpmem).Fits := by
  rw [fbAcquire, Code.runs_get_bind] at h
  obtain ⟨_, _, s₁, _, h₁, k₁, -⟩ := Code.runs_bind.mp h
  obtain ⟨_, _, s₂, _, h₂, k₂, -⟩ := Code.runs_bind.mp k₁
  obtain ⟨_, m, s₃, _, h₃, k₃, -⟩ := Code.runs_bind.mp k₂
  obtain ⟨_, _, s₄, _, h₄, -, -⟩ := Code.runs_bind.mp k₃
  have hfb₂ : s₂.fb = s.fb := by rw [(csuSetCsl_runs h₂).2.2.1, (emuAddRegion_runs h₁).2]
  rw [readCpmem, Code.runs_get_bind, Code.runs_require_bind, Code.runs_pure, hfb₂] at h₃
  obtain ⟨-, -, rfl, -⟩ := h₃
  exact fbClear_fits (fbInfoOf_sized env s.fb.cpmem) h₄

/-- `fb_acquire` stops only where the display cannot be drawn on. -/
theorem fbAcquire_stops {env : Env} {r g b : Byte} {s : Sys} {w : List Event} {e : Fault}
    (h : Code.Stops (fbAcquire env r g b) s w e) : ¬ s.DisplayReady env ∧ e = .undefined := by
  rw [fbAcquire, Code.stops_get_bind] at h
  obtain k₁ | ⟨_, _, s₁, _, h₁, k₁, -⟩ := Code.stops_bind.mp h
  · exact absurd k₁ (@emuAddRegion_total _ _ _ _ _ _ _)
  obtain k₂ | ⟨_, _, s₂, _, h₂, k₂, -⟩ := Code.stops_bind.mp k₁
  · exact absurd k₂ (@csuSetCsl_protect_total env _ (by decide) (by decide) _ _ _)
  have hfb₂ : s₂.fb = s.fb := by rw [(csuSetCsl_runs h₂).2.2.1, (emuAddRegion_runs h₁).2]
  obtain k₃ | ⟨_, m, s₃, _, h₃, k₃, -⟩ := Code.stops_bind.mp k₂
  · rw [readCpmem, Code.stops_get_bind, Code.stops_require_bind, hfb₂] at k₃
    obtain ⟨hmap, -, he⟩ | ⟨-, k₃⟩ := k₃
    · exact ⟨fun hready => hmap hready.1, he⟩
    · exact absurd k₃ Code.stops_pure
  rw [readCpmem, Code.runs_get_bind, Code.runs_require_bind, Code.runs_pure, hfb₂] at h₃
  obtain ⟨hmap, -, rfl, rfl⟩ := h₃
  have hsized := fbInfoOf_sized env s.fb.cpmem
  obtain k₄ | ⟨_, _, s₄, _, h₄, k₄, -⟩ := Code.stops_bind.mp k₃
  · refine ⟨fun hready => ?_, fbClear_undefined k₄⟩
    exact fbClear_total hsized hready.2 k₄
  have hmap₄ : s₄.fb.cpmemVaddr.isSome = true := by
    rw [(fbClear_paintOnly _ _ _ _ h₄).rest, hfb₂]
    exact hmap
  obtain k₅ | ⟨_, _, _, _, -, k₅, -⟩ := Code.stops_bind.mp k₄
  · exact absurd hmap₄ (modifyCpmems_stops (fun _ => ⟨_, rfl⟩) k₅).1
  · exact absurd k₅ Code.stops_pure

/-- Up to the first byte drawn, `fb_acquire` stops only where CPMEM is not mapped. -/
theorem fbAcquire_clears {env : Env} {r g b : Byte} {s : Sys} (hmap : s.fb.cpmemVaddr.isSome = true) :
    ∃ s₁, ∀ x, x ∈ (fbClear (fbInfoOf env s.fb.cpmem) r g b s₁).events →
      x ∈ (fbAcquire env r g b s).events := by
  obtain ⟨w₁, ret, s₁, h₁⟩ :=
    (emuAddRegion_total env s.fb.basePaddr 0x400000 .fb).runs s
  have hfb₁ : s₁.fb = s.fb := by rw [(emuAddRegion_runs h₁).2]
  obtain ⟨w₂, u, s₂, h₂⟩ :=
    (@csuSetCsl_protect_total env fbCsl (by decide) (by decide)).runs s₁
  have hfb₂ : s₂.fb = s.fb := by rw [(csuSetCsl_runs h₂).2.2.1, hfb₁]
  have hread : Code.Runs readCpmem s₂ [] s.fb.cpmem s₂ := by
    rw [readCpmem, Code.runs_get_bind, Code.runs_require_bind, Code.runs_pure, hfb₂]
    exact ⟨hmap, rfl, rfl, rfl⟩
  refine ⟨s₂, fun x hx => ?_⟩
  refine Code.mem_events_bind.mpr (Or.inr ⟨_, _, _, Code.runs_get.mpr ⟨rfl, rfl, rfl⟩, ?_⟩)
  refine Code.mem_events_bind.mpr (Or.inr ⟨_, _, _, h₁, ?_⟩)
  refine Code.mem_events_bind.mpr (Or.inr ⟨_, _, _, h₂, ?_⟩)
  refine Code.mem_events_bind.mpr (Or.inr ⟨_, _, _, hread, ?_⟩)
  exact Code.mem_events_bind.mpr (Or.inl hx)

/-- A screen that does not fit is cleared over the end of the framebuffer. -/
theorem fbAcquire_overdraws {env : Env} {r g b : Byte} {s : Sys}
    (hmap : s.fb.cpmemVaddr.isSome = true) (hbuf : env.fbVaddr.isSome = true)
    (hbig : fbmemSize < (fbInfoOf env s.fb.cpmem).bytes) :
    ∃ pa, .pixel pa ∈ (fbAcquire env r g b s).events ∧ fbmemStart.toNat + fbmemSize ≤ pa := by
  obtain ⟨s₁, hclear⟩ := @fbAcquire_clears env r g b s hmap
  rcases Code.runs_or_stops (fbClear (fbInfoOf env s.fb.cpmem) r g b) s₁ with
    ⟨_, s₂, hrun⟩ | ⟨e, hstop⟩
  · have hfit := (fbClear_fits (fbInfoOf_sized env _) hrun).bytes
    exact absurd hfit (Nat.not_le.mpr hbig)
  · obtain ⟨pa, hmem, hle⟩ := fbClear_stops hbuf hstop
    exact ⟨pa, hclear _ hmem, hle⟩

/-- `fb_acquire` succeeds just where the display can be drawn on. -/
theorem fbAcquire_runs_iff {env : Env} {r g b : Byte} {s : Sys} :
    (∃ w s', Code.Runs (fbAcquire env r g b) s w (some (fbInfoOf env s.fb.cpmem)) s') ↔
      s.DisplayReady env := by
  constructor
  · rintro ⟨w, s', h⟩
    obtain ⟨-, hmap, -⟩ := fbAcquire_stages h
    exact ⟨hmap, fbAcquire_fits h⟩
  · intro hready
    rcases Code.runs_or_stops (fbAcquire env r g b) s with ⟨res, s', hrun⟩ | ⟨e, hstop⟩
    · obtain ⟨rfl, -⟩ := fbAcquire_stages hrun
      exact ⟨_, s', hrun⟩
    · exact absurd hready (fbAcquire_stops hstop).1

/-- `fb_release` does not stop while the CSL of the display is held. -/
theorem fbRelease_total {env : Env} {clean : Prop} {X : List Int} {info : FbInfo} {s : Sys}
    {w : List Event} {e : Fault} (hmap : s.fb.cpmemVaddr.isSome = true)
    (hb : Balanced env clean (fbCsl :: X) s) : ¬ Code.Stops (fbRelease env info) s w e := by
  intro h
  obtain ⟨-, h⟩ := Code.stops_runIf.mp h
  obtain k₁ | ⟨_, _, s₁, _, h₁, k₁, -⟩ := Code.stops_bind.mp h
  · exact (modifyCpmems_stops (fun _ => ⟨_, rfl⟩) k₁).1 hmap
  have hdraw := (Code.within_forEach drawOnly_closed (fun _ _ => modifyCpmem_drawOnly _) h₁).rest
  obtain k₂ | ⟨_, _, _, _, -, k₂, -⟩ := Code.stops_bind.mp k₁
  · obtain ⟨L, ha⟩ := hb
    have hcsl : IsCsl fbCsl := ⟨by decide, by decide⟩
    have hpos := ha.ledger.csl.pos hcsl (Or.inr List.mem_cons_self)
    have hcsu : s₁.csu = s.csu := by rw [hdraw]
    obtain ⟨-, ⟨hc, -⟩ | ⟨-, hlt, -⟩⟩ := csuSetCsl_stops k₂
    · exact hc (by decide)
    · rw [hcsu] at hlt
      omega
  · rw [Code.stops_get_bind] at k₂
    exact emuRemoveRegion_total _ _ _ k₂

end SeCloak
