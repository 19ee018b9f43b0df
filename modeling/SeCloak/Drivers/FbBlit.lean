import SeCloak.Drivers.FbBounds
import SeCloak.Kernel.Boot
import SeCloak.Misc.Writes

/-!
# Clipping

`fb_blit` copies the part of an image that lies on the screen, and nothing else: the loop over the
lines and the copy of each line are one sequence of byte stores (`blitBytes`), which are the bytes of
the pixels in `InClip`.
-/

namespace SeCloak
open Misc

/-- The first byte of a pixel of the screen. -/
def FbInfo.offset (info : FbInfo) (px py : Nat) : Nat := 3 * (info.width.toNat * py + px)

/-- A byte of a pixel of the image. -/
def imageByte (env : Env) (image : Image) (ix iy c : Nat) : Byte :=
  env.pixels image.bitmap (3 * (image.width.toNat * iy + ix) + c)

/-- The pixel of the screen is covered by the image at `(x, y)`. -/
structure InClip (info : FbInfo) (x y : Word) (image : Image) (px py : Nat) : Prop where
  left : x.toNat ≤ px
  right : px < min (x.toNat + image.width.toNat) info.width.toNat
  top : y.toNat ≤ py
  bottom : py < min (y.toNat + image.height.toNat) info.height.toNat

/-- The image is drawn at `(x, y)`: each pixel that it covers is the one of the image, and every
other byte is as before. -/
structure Blitted (env : Env) (info : FbInfo) (x y : Word) (image : Image) (mem mem' : Nat → Byte) :
    Prop where
  copied : ∀ px py, InClip info x y image px py → ∀ c < 3,
    mem' (info.offset px py + c) = imageByte env image (px - x.toNat) (py - y.toNat) c
  kept : ∀ o, (∀ px py, InClip info x y image px py → ∀ c < 3, o ≠ info.offset px py + c) →
    mem' o = mem o

/-! ## Sequences of stores -/

section Stores

variable {info : FbInfo} {ps : List (Nat × Byte)} {s s' : Sys} {w : List Event} {u : Unit}

/-- The stores of a sequence of bytes. -/
def fbStores (info : FbInfo) (ps : List (Nat × Byte)) : Kernel Unit :=
  Code.forEach (fun p => fbStore info p.1 p.2) ps

theorem fbStores_runs (h : Code.Runs (fbStores info ps) s w u s') :
    s' = { s with fb := { s.fb with mem := writeAll s.fb.mem ps } } := by
  induction ps generalizing s w with
  | nil =>
    obtain ⟨-, rfl⟩ := Code.runs_forEach_nil.mp h
    rfl
  | cons p ps ih =>
    obtain ⟨w₁, s₁, w₂, h₁, h₂, -⟩ := Code.runs_forEach_cons.mp h
    obtain ⟨-, -, -, rfl⟩ := fbStore_runs h₁
    exact ih h₂

/-- Stores that stay inside of the screen do not stop. -/
theorem fbStores_total (hfit : info.Fits) (hps : ∀ p ∈ ps, p.1 < info.bytes) :
    Code.Total (fbStores info ps) :=
  Code.total_forEach fun p hp => fbStore_total hfit (hps p hp)

end Stores

/-! ## The bytes of a blit -/

/-- The lines that `fb_blit` visits. -/
def blitRows (info : FbInfo) (y : Word) (image : Image) : List Nat :=
  (List.range image.height.toNat).takeWhile fun n => y + BitVec.ofNat 32 n < info.height

/-- The bytes that `fb_blit` stores, in order. -/
def blitBytes (env : Env) (info : FbInfo) (x y : Word) (image : Image) : List (Nat × Byte) :=
  let copyPerLine := if info.width < x + image.width then 3 * (info.width - x) else 3 * image.width
  (blitRows info y image).flatMap fun n =>
    let fbLine := (info.stride * (y + BitVec.ofNat 32 n)).toNat + (3 * x).toNat
    let bufLine := (3 * image.width * BitVec.ofNat 32 n).toNat
    (List.range copyPerLine.toNat).map fun k =>
      (fbLine + k, env.pixels image.bitmap (bufLine + k))

theorem fbBlit_eq (env : Env) (info : FbInfo) (x y : Word) (image : Image) :
    fbBlit env info x y image =
      Code.runIf (x < info.width ∧ y < info.height)
        (fbStores info (blitBytes env info x y image)) := by
  unfold fbBlit fbStores blitBytes
  dsimp only
  rw [← Code.forEach_flatMap]
  simp only [Code.forEach_map]
  rfl

theorem takeWhile_range {p : Nat → Bool} {k : Nat} (hlt : ∀ n < k, p n = true) (hk : p k = false)
    (n : Nat) : (List.range n).takeWhile p = List.range (min n k) := by
  induction n with
  | zero => simp
  | succ n ih =>
    rw [List.range_succ, List.takeWhile_append, ih, List.length_range, List.length_range]
    by_cases hn : n ≤ k
    · rw [Nat.min_eq_left hn, if_pos rfl]
      by_cases hnk : n = k
      · subst hnk
        rw [List.takeWhile_cons_of_neg (by simp [hk]), List.append_nil,
          Nat.min_eq_right (Nat.le_succ n)]
      · rw [List.takeWhile_cons_of_pos (hlt n (by omega)), List.takeWhile_nil,
          Nat.min_eq_left (by omega), List.range_succ]
    · rw [if_neg (by omega), Nat.min_eq_right (by omega), Nat.min_eq_right (by omega)]

section Blit

variable {env : Env} {info : FbInfo} {x y : Word} {image : Image}

/-- The lines of the image that lie on the screen. -/
theorem blitRows_eq (hh : info.height.toNat ≤ 2 ^ 12) (hy : y < info.height) :
    blitRows info y image =
      List.range (min image.height.toNat (info.height.toNat - y.toNat)) := by
  have hy' : y.toNat < info.height.toNat := hy
  have hrow : ∀ n ≤ info.height.toNat - y.toNat, (y + BitVec.ofNat 32 n).toNat = y.toNat + n := by
    intro n hn
    rw [BitVec.toNat_add, BitVec.toNat_ofNat]
    omega
  apply takeWhile_range
  · intro n hn
    rw [decide_eq_true_iff, BitVec.lt_def, hrow n (by omega)]
    omega
  · rw [decide_eq_false_iff_not, BitVec.lt_def, hrow _ (Nat.le_refl _)]
    omega

/-- The bytes that are copied of each line, where the image has one. -/
theorem copyPerLine_eq (hw : info.width.toNat ≤ 2 ^ 13) (hx : x < info.width)
    (himg : 3 * image.width.toNat < 2 ^ 31) :
    (if info.width < x + image.width then 3 * (info.width - x) else 3 * image.width).toNat =
      3 * min image.width.toNat (info.width.toNat - x.toNat) := by
  have hx' : x.toNat < info.width.toNat := hx
  have hthree : (3 : Word).toNat = 3 := rfl
  have hsum : (x + image.width).toNat = x.toNat + image.width.toNat := by
    rw [BitVec.toNat_add]
    omega
  split
  · rename_i hlt
    rw [BitVec.lt_def, hsum] at hlt
    rw [BitVec.toNat_mul, BitVec.toNat_sub_of_le (Nat.le_of_lt hx'), hthree]
    omega
  · rename_i hge
    rw [BitVec.lt_def, hsum] at hge
    rw [BitVec.toNat_mul, hthree]
    omega

/-- The stores of a blit are those of the covered pixels. -/
theorem mem_blitBytes (hsize : info.Sized) (hx : x < info.width) (hy : y < info.height)
    (himg : 3 * (image.width.toNat * image.height.toNat) < 2 ^ 31) {p : Nat × Byte} :
    p ∈ blitBytes env info x y image ↔ ∃ px py c, InClip info x y image px py ∧ c < 3 ∧
      p = (info.offset px py + c, imageByte env image (px - x.toNat) (py - y.toNat) c) := by
  have hx' : x.toNat < info.width.toNat := hx
  have hy' : y.toNat < info.height.toNat := hy
  have hthree : (3 : Word).toNat = 3 := rfl
  have hw := hsize.width_le
  have h3x : (3 * x).toNat = 3 * x.toNat := by
    rw [BitVec.toNat_mul, hthree]
    omega
  unfold blitBytes
  dsimp only
  rw [blitRows_eq hsize.height_le hy]
  simp only [List.mem_flatMap, List.mem_map, List.mem_range]
  -- byte `k` of line `n`
  have hbyte : ∀ n < min image.height.toNat (info.height.toNat - y.toNat), ∀ k,
      ((info.stride * (y + BitVec.ofNat 32 n)).toNat + (3 * x).toNat + k,
        env.pixels image.bitmap ((3 * image.width * BitVec.ofNat 32 n).toNat + k)) =
      (info.offset (x.toNat + k / 3) (y.toNat + n) + k % 3,
        imageByte env image (k / 3) n (k % 3)) := by
    intro n hn k
    have hrow : (y + BitVec.ofNat 32 n).toNat = y.toNat + n := by
      have := hsize.height_le
      rw [BitVec.toNat_add, BitVec.toNat_ofNat]
      omega
    have hline : image.width.toNat * n ≤ image.width.toNat * image.height.toNat :=
      Nat.mul_le_mul_left _ (by omega)
    have hone : image.width.toNat ≤ image.width.toNat * image.height.toNat :=
      Nat.le_mul_of_pos_right _ (by omega)
    have hbuf : (3 * image.width * BitVec.ofNat 32 n).toNat = 3 * (image.width.toNat * n) := by
      have := hsize.height_le
      rw [BitVec.toNat_mul, BitVec.toNat_mul, BitVec.toNat_ofNat, hthree,
        Nat.mod_eq_of_lt (show n < 2 ^ 32 by omega),
        Nat.mod_eq_of_lt (show 3 * image.width.toNat < 2 ^ 32 by omega), Nat.mul_assoc]
      omega
    rw [hsize.line (by rw [hrow]; omega), hrow, h3x, hbuf]
    have hsrc : 3 * (image.width.toNat * n) + k = 3 * (image.width.toNat * n + k / 3) + k % 3 := by
      omega
    unfold FbInfo.offset imageByte
    rw [hsrc]
    exact congrArg (fun o => (o, _)) (by omega)
  constructor
  · rintro ⟨n, hn, k, hk, rfl⟩
    have hone : image.width.toNat ≤ image.width.toNat * image.height.toNat :=
      Nat.le_mul_of_pos_right _ (by omega)
    rw [copyPerLine_eq hw hx (by omega)] at hk
    rw [hbyte n hn k]
    refine ⟨x.toNat + k / 3, y.toNat + n, k % 3, ⟨?_, ?_, ?_, ?_⟩, Nat.mod_lt _ (by decide), ?_⟩
    any_goals omega
    rw [Nat.add_sub_cancel_left, Nat.add_sub_cancel_left]
  · rintro ⟨px, py, c, ⟨hleft, hright, htop, hbottom⟩, hc, rfl⟩
    have hone : image.width.toNat ≤ image.width.toNat * image.height.toNat :=
      Nat.le_mul_of_pos_right _ (by omega)
    have hrow : py - y.toNat < min image.height.toNat (info.height.toNat - y.toNat) := by omega
    refine ⟨py - y.toNat, hrow, 3 * (px - x.toNat) + c, ?_, ?_⟩
    · rw [copyPerLine_eq hw hx (by omega)]
      omega
    · rw [hbyte _ hrow, show (3 * (px - x.toNat) + c) / 3 = px - x.toNat by omega,
        show (3 * (px - x.toNat) + c) % 3 = c by omega,
        Nat.add_sub_cancel' hleft, Nat.add_sub_cancel' htop]

/-- A pixel is found from its offset. -/
theorem offset_inj {px py c px' py' c' : Nat} (hpx : px < info.width.toNat)
    (hpx' : px' < info.width.toNat) (hc : c < 3) (hc' : c' < 3)
    (h : info.offset px py + c = info.offset px' py' + c') : px = px' ∧ py = py' ∧ c = c' := by
  unfold FbInfo.offset at h
  have hpixel : info.width.toNat * py + px = info.width.toNat * py' + px' := by omega
  have hmod := congrArg (· % info.width.toNat) hpixel
  have hdiv := congrArg (· / info.width.toNat) hpixel
  simp only [Nat.mul_add_mod, Nat.mod_eq_of_lt hpx, Nat.mod_eq_of_lt hpx'] at hmod
  simp only [Nat.mul_add_div (Nat.zero_lt_of_lt hpx), Nat.div_eq_of_lt hpx,
    Nat.div_eq_of_lt hpx', Nat.add_zero] at hdiv
  exact ⟨hmod, hdiv, by omega⟩

theorem blitBytes_singleValued (hsize : info.Sized) (hx : x < info.width) (hy : y < info.height)
    (himg : 3 * (image.width.toNat * image.height.toNat) < 2 ^ 31) :
    SingleValued (blitBytes env info x y image) := by
  intro p hp q hq hpq
  obtain ⟨px, py, c, hin, hc, rfl⟩ := (mem_blitBytes hsize hx hy himg).mp hp
  obtain ⟨px', py', c', hin', hc', rfl⟩ := (mem_blitBytes hsize hx hy himg).mp hq
  have hright := Nat.lt_of_lt_of_le hin.right (Nat.min_le_right _ _)
  have hright' := Nat.lt_of_lt_of_le hin'.right (Nat.min_le_right _ _)
  obtain ⟨rfl, rfl, rfl⟩ := offset_inj hright hright' hc hc' hpq
  rfl

theorem blitted_writeAll (hsize : info.Sized) (hx : x < info.width) (hy : y < info.height)
    (himg : 3 * (image.width.toNat * image.height.toNat) < 2 ^ 31) (mem : Nat → Byte) :
    Blitted env info x y image mem (writeAll mem (blitBytes env info x y image)) where
  copied px py hin c hc := by
    have hmem := (@mem_blitBytes env _ _ _ _ hsize hx hy himg _).mpr ⟨px, py, c, hin, hc, rfl⟩
    exact writeAll_mem (blitBytes_singleValued hsize hx hy himg) hmem mem
  kept o ho := by
    refine writeAll_other (fun p hp => ?_) mem
    obtain ⟨px, py, c, hin, hc, rfl⟩ := (mem_blitBytes hsize hx hy himg).mp hp
    exact ho px py hin c hc

/-- Nothing of an image that starts outside of the screen is drawn. -/
theorem not_inClip (h : ¬ (x < info.width ∧ y < info.height)) (px py : Nat) :
    ¬ InClip info x y image px py := by
  intro hin
  obtain ⟨hleft, hright, htop, hbottom⟩ := hin
  apply h
  rw [BitVec.lt_def, BitVec.lt_def]
  omega

/-- A pixel that is covered is a pixel of the screen. -/
theorem InClip.offset_lt {px py c : Nat} (hin : InClip info x y image px py) (hc : c < 3) :
    info.offset px py + c < info.bytes := by
  have hpx : px < info.width.toNat := Nat.lt_of_lt_of_le hin.right (Nat.min_le_right _ _)
  have hpy : py < info.height.toNat := Nat.lt_of_lt_of_le hin.bottom (Nat.min_le_right _ _)
  have hnext : info.width.toNat * (py + 1) ≤ info.width.toNat * info.height.toNat :=
    Nat.mul_le_mul_left _ hpy
  unfold FbInfo.offset FbInfo.bytes
  rw [Nat.mul_succ] at hnext
  omega

/-- `fb_blit` of an image that exists does not stop on a screen that fits into its memory. -/
theorem fbBlit_returns (hsize : info.Sized) (hfit : info.Fits)
    (himg : 3 * (image.width.toNat * image.height.toNat) < 2 ^ 31) :
    Code.Total (fbBlit env info x y image) := by
  rw [fbBlit_eq]
  refine Code.total_runIf fun hxy => fbStores_total hfit fun p hp => ?_
  obtain ⟨px, py, c, hin, hc, rfl⟩ := (mem_blitBytes hsize hxy.1 hxy.2 himg).mp hp
  exact hin.offset_lt hc

/-- `fb_blit` draws what lies on the screen and nothing else, and it returns if there is memory for the
lines of the screen. -/
theorem fbBlit_clips (hw : info.width.toNat ≤ 8192) (hh : info.height.toNat ≤ 4096)
    (hstride : info.stride = info.width * 3)
    (himg : 3 * (image.width.toNat * image.height.toNat) < 2 ^ 31) (s : Sys) :
    (∀ w u s', Code.Runs (fbBlit env info x y image) s w u s' →
      Blitted env info x y image s.fb.mem s'.fb.mem ∧
        s' = { s with fb := { s.fb with mem := s'.fb.mem } }) ∧
    (info.buffer.isSome = true → info.stride.toNat * info.height.toNat ≤ info.room →
      ∃ w s', Code.Runs (fbBlit env info x y image) s w () s') := by
  by_cases hxy : x < info.width ∧ y < info.height
  · obtain ⟨hx, hy⟩ := hxy
    have hsize : info.Sized :=
      ⟨hstride, Nat.zero_lt_of_lt hx, hw, Nat.zero_lt_of_lt hy, hh⟩
    refine ⟨fun w u s' h => ?_, fun hbuf hroom => ?_⟩
    · rw [fbBlit_eq, Code.runIf, if_pos ⟨hx, hy⟩] at h
      obtain rfl := fbStores_runs h
      exact ⟨blitted_writeAll hsize hx hy himg s.fb.mem, rfl⟩
    · have hfit : info.Fits := by
        refine ⟨hbuf, ?_⟩
        rwa [hsize.stride_eq, Nat.mul_assoc] at hroom
      obtain ⟨w, _, s', hrun⟩ := (fbBlit_returns hsize hfit himg).runs s
      exact ⟨w, s', hrun⟩
  · rw [fbBlit_eq, Code.runIf, if_neg hxy]
    refine ⟨fun w u s' h => ?_, fun _ _ => ⟨[], s, rfl⟩⟩
    obtain ⟨-, -, rfl⟩ := Code.runs_pure.mp h
    exact ⟨⟨fun px py hin => absurd hin (not_inClip hxy px py), fun _ _ => rfl⟩, rfl⟩

end Blit

/-- An image of three by two pixels at the lower right corner of a screen of four by three, whose memory
has 36 bytes. -/
theorem fbBlit_clips_corner :
    let info : FbInfo := ⟨some 0x7B800000, 36, 4, 3, 12, fun _ => 0, fun _ => 0⟩
    let image : Image := ⟨.wifi, 3, 2⟩
    ∃ w s', Code.Runs (fbBlit imx6 info 2 2 image) (resetWithInstr 0) w () s' ∧
      Blitted imx6 info 2 2 image (resetWithInstr 0).fb.mem s'.fb.mem := by
  intro info image
  have hclips := @fbBlit_clips imx6 info 2 2 image (by decide) (by decide) rfl (by decide)
    (resetWithInstr 0)
  obtain ⟨w, s', hrun⟩ := hclips.2 rfl (by decide)
  exact ⟨w, s', hrun, (hclips.1 w () s' hrun).1⟩

end SeCloak
