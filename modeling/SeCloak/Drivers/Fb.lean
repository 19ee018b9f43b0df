import SeCloak.Drivers.DtProps

/-!
# The framebuffer (`imx_fb.c`)

`fb_acquire` points the display at memory that only the secure world can write and `fb_release`
restores the previous configuration. The channel parameters live in CPMEM, which is read and
written through bit fields that may cross a word.
-/

namespace SeCloak
open Misc

/-- `imx_fb.c:37-40`. -/
def ipuCpmemOffset : Word := 0x300000
def ipuChan0 : Nat := 23
def ipuChan1 : Nat := 69

/-- `CFG_FBMEM_START` and `CFG_FBMEM_SIZE`. -/
def fbmemStart : Word := 0x4B800000
def fbmemSize : Nat := 0x00800000

/-! ## Channel parameters -/

/-- The CPMEM word with bit `bit` of word `w` of a channel (`imx_fb.c:47-49`). -/
def ipuReg (channel w bit : Nat) : Nat := channel * 16 + w * 8 + bit / 32

/-- `ipu_ch_param_read_field` (`imx_fb.c:42-61`). -/
def ipuChParamReadField (m : Nat → Word) (channel w bit size : Nat) : Word :=
  let off := bit % 32
  let mask := (1#32 <<< size) - 1
  let reg := ipuReg channel w bit
  let value := mask &&& (m reg >>> off)
  if bit / 32 < (bit + size - 1) / 32 then
    let shift := if off ≠ 0 then 32 - off else 0
    value ||| ((m (reg + 1) &&& (mask >>> shift)) <<< shift)
  else value

/-- `ipu_ch_param_write_field` (`imx_fb.c:63-83`). -/
def ipuChParamWriteField (m : Nat → Word) (channel w bit size : Nat) (value : Word) : Nat → Word :=
  let off := bit % 32
  let mask := (1#32 <<< size) - 1
  let reg := ipuReg channel w bit
  let m₁ := Function.update m reg ((m reg &&& ~~~(mask <<< off)) ||| (value <<< off))
  if bit / 32 < (bit + size - 1) / 32 then
    let shift := if off ≠ 0 then 32 - off else 0
    Function.update m₁ (reg + 1) ((m₁ (reg + 1) &&& ~~~(mask >>> (32 - off))) ||| (value >>> shift))
  else m₁

/-- Read CPMEM through `g_cpmem_vaddr`. -/
def readCpmem : Kernel (Nat → Word) := do
  let s ← Code.get
  Code.require (s.fb.cpmemVaddr.isSome = true) .undefined
  pure s.fb.cpmem

/-- Update CPMEM through `g_cpmem_vaddr`. -/
def modifyCpmem (f : (Nat → Word) → Nat → Word) : Kernel Unit := do
  let s ← Code.get
  Code.require (s.fb.cpmemVaddr.isSome = true) .undefined
  Code.modify fun s => { s with fb := { s.fb with cpmem := f s.fb.cpmem } }

/-! ## Drawing -/

/-- Store a byte through the pointer to the framebuffer. A store behind its memory overwrites what lies
there, for `CFG_FBMEM` the RAM of the kernel (`platform_config.h:245-248`); what happens after that is
undefined. -/
def fbStore (info : FbInfo) (offset : Nat) (b : Byte) : Kernel Unit := do
  Code.require (info.buffer.isSome = true) .undefined
  Code.emit fun _ => .pixel (fbmemStart.toNat + offset)
  Code.require (offset < info.room) .undefined
  Code.modify fun s => { s with fb := { s.fb with mem := Function.update s.fb.mem offset b } }

/-- `fb_clear` (`imx_fb.c:163-172`). -/
def fbClear (info : FbInfo) (r g b : Byte) : Kernel Unit :=
  Code.forEach (fun y =>
    let line := (info.stride * BitVec.ofNat 32 y).toNat
    Code.forEach (fun x => do
      fbStore info (line + 3 * x) r
      fbStore info (line + 3 * x + 1) g
      fbStore info (line + 3 * x + 2) b) (List.range info.width.toNat))
    (List.range info.height.toNat)

/-- `struct image` (`imx_fb.h:16-20`). -/
structure Image where
  bitmap : Bitmap
  width : Word
  height : Word
  deriving DecidableEq

/-- `struct blit` (`imx_fb.h:22-26`). -/
structure Blit where
  x : Word
  y : Word
  image : Image
  deriving DecidableEq

/-- `fb_blit` (`imx_fb.c:174-191`) of an image. -/
def fbBlit (env : Env) (info : FbInfo) (x y : Word) (image : Image) : Kernel Unit :=
  Code.runIf (x < info.width ∧ y < info.height) do
    let copyPerLine := if info.width < x + image.width then 3 * (info.width - x) else 3 * image.width
    Code.forEach (fun n =>
      let fbLine := (info.stride * (y + BitVec.ofNat 32 n)).toNat + (3 * x).toNat
      let bufLine := (3 * image.width * BitVec.ofNat 32 n).toNat
      Code.forEach (fun k => fbStore info (fbLine + k) (env.pixels image.bitmap (bufLine + k)))
        (List.range copyPerLine.toNat))
      ((List.range image.height.toNat).takeWhile fun n => y + BitVec.ofNat 32 n < info.height)

/-- `fb_blit_image` (`imx_fb.c:193-195`). -/
def fbBlitImage (env : Env) (info : FbInfo) (x y : Word) (image : Image) : Kernel Unit := do
  Code.emit fun _ => .blit x y image.bitmap
  fbBlit env info x y image

/-- `fb_blit_all` (`imx_fb.c:197-201`). -/
def fbBlitAll (env : Env) (info : FbInfo) (blits : List Blit) : Kernel Unit :=
  Code.forEach (fun b => fbBlitImage env info b.x b.y b.image) blits

/-! ## Acquire and release -/

/-- `fb_emu_check` (`imx_fb.c:85-95`). -/
def fbEmuCheck (r : Region) (address : Word) (state : EmuState) : Bool :=
  let offset := address - r.base
  if offset = 0x3005E0 ∨ offset = 0x3005E4 ∨ offset = 0x301160 then decide (state ≠ .write)
  else true

/-- The CSL of the display (`imx_fb.c:100`). -/
def fbCsl : Int := 61

/-- The fields that `fb_acquire` programs (`imx_fb.c:122-140`): channel, word, bit, size and
value, in this order. -/
def fbFields (stride : Word) : List (Nat × Nat × Nat × Nat × Word) :=
  [(ipuChan0, 0, 107, 3, 1), (ipuChan0, 1, 85, 4, 7), (ipuChan0, 1, 78, 7, 19),
   (ipuChan0, 1, 116, 3, 7), (ipuChan0, 1, 128, 5, 16), (ipuChan0, 1, 119, 3, 7),
   (ipuChan0, 1, 133, 5, 8), (ipuChan0, 1, 122, 3, 7), (ipuChan0, 1, 138, 5, 0),
   (ipuChan0, 1, 125, 3, 7), (ipuChan0, 1, 143, 5, 24), (ipuChan0, 1, 102, 14, stride - 1),
   (ipuChan0, 1, 0, 29, fbmemStart / 8), (ipuChan0, 1, 29, 29, fbmemStart / 8),
   (ipuChan1, 1, 0, 29, fbmemStart / 8)]

/-- The sixteen parameter words of a channel. -/
def ipuParams (m : Nat → Word) (channel p : Nat) : Word := m (channel * 16 + p)

/-- `fb_acquire` (`imx_fb.c:97-143`); it always succeeds. -/
def fbAcquire (env : Env) (r g b : Byte) : Kernel (Option FbInfo) := do
  let s ← Code.get
  -- deny non-secure transactions to the buffers
  let _ ← emuAddRegion env s.fb.basePaddr 0x400000 .fb
  csuSetCsl env fbCsl true
  let m ← readCpmem
  let width := ipuChParamReadField m ipuChan0 0 125 13 + 1
  let info : FbInfo :=
    { buffer := env.fbVaddr, room := fbmemSize, width := width
      height := ipuChParamReadField m ipuChan0 0 138 12 + 1, stride := width * 3
      prevParamsCh0 := ipuParams m ipuChan0, prevParamsCh1 := ipuParams m ipuChan1 }
  fbClear info r g b
  Code.forEach (fun (ch, w, bit, size, value) =>
    modifyCpmem fun m => ipuChParamWriteField m ch w bit size value) (fbFields info.stride)
  pure (some info)

/-- `fb_release` (`imx_fb.c:145-161`). -/
def fbRelease (env : Env) (info : FbInfo) : Kernel Unit :=
  Code.runIf (info.buffer.isSome = true) do
    Code.forEach (fun p => modifyCpmem fun m =>
      Function.update (Function.update m (ipuChan0 * 16 + p) (info.prevParamsCh0 p))
        (ipuChan1 * 16 + p) (info.prevParamsCh1 p)) (List.range 16)
    csuSetCsl env fbCsl false
    let s ← Code.get
    emuRemoveRegion s.fb.basePaddr 0x400000 .fb

/-- `fb_probe` (`imx_fb.c:203-227`); `mapped` is whether the registers could be mapped, `cpmem`
where CPMEM is then found and `words` what it holds. -/
def fbProbe (dev : Device) (mapped : Bool) (cpmem : Option Word) (words : Nat → Word) :
    Kernel Int :=
  match dev.info.resources, dev.info.resourceType, mapped with
  | [r], .mem, true => do
    let s ← Code.get
    let paddr := r.address.c0
    Code.runIf (s.fb.basePaddr = 0 ∨ paddr < s.fb.basePaddr) (Code.modify fun s =>
      { s with fb := { s.fb with basePaddr := paddr, cpmemVaddr := cpmem, cpmem := words } })
    pure 0
  | _, _, _ => pure einval

end SeCloak
