import Sipi.Formats.PngHeader
import Sipi.Geometry.Readers
import Sipi.Image.Scale

/-!
# Reading PNG files

`SipiIOPng::read` in `src/formats/SipiIOPng.cpp` takes the block that libpng has filled, swaps the bytes of samples
of sixteen bits, crops the image, scales it and cuts its samples to eight bits.

## Honest scope

The object that is read into is new, and the memory suffices.
-/

namespace Sipi.Formats

open Sipi.Theory Sipi.Image Sipi.Geometry Sipi.Iiif

/-! ### The reader -/

/-- What goes wrong when a PNG is read. -/
inductive PngError where
  | refused (e : ReadError)
  | overrun
  | overflow
  deriving DecidableEq

/-- The errors of scaling. -/
def PngError.ofScale : ScaleError → PngError
  | .overrun => .overrun
  | .overflow => .overflow

/-- `ntohs`, on a machine with the lower byte first. -/
def ntohs (w : ℕ) : ℕ := w % 256 * 256 + w / 256 % 256

/-- The loop that swaps bytes, with an `int`. -/
def swapWords (n : ℕ) (tmp : Buffer ℕ) : Except PngError (Buffer ℕ) :=
  forCounter (2 ^ 31) .overflow n (fun i tmp => do
    let w ← tmp.fetch .overrun i
    tmp.put .overrun i (ntohs w)) tmp

namespace Png

variable (f : Png)

/-- The image without its block. -/
def header : SipiImage where
  nx := f.dims.w
  ny := f.dims.h
  nc := f.info.colorType.channels
  bps := if f.info.bitDepth = 16 then .sixteen else .eight
  photo := f.photo
  es := f.es
  orientation := .topLeft
  exif := f.exif
  pixels := .const 0 0

/-- `buffer`, as libpng fills it. -/
def buffer : Buffer ℕ := ⟨f.dims.h * f.info.rowbytes f.dims.w % 2 ^ 64, fun p => (f.bytes p).toNat⟩

/-- The image as it is before it is cropped. -/
def decoded : Except PngError SipiImage :=
  if f.buffer.size < f.dims.h * f.info.rowbytes f.dims.w then .error .overrun
  else match f.header.bps with
    | .eight => .ok (f.header.withData f.buffer)
    | .sixteen =>
      (swapWords (f.header.nx * f.header.ny * f.header.nc) (f.header.withData f.buffer).pixels).map fun tmp =>
        { f.header with pixels := tmp }

/-- `SipiImage::crop`, with the sides left. -/
def cropped (region : Region) (img : SipiImage) : Except PngError (Dims × SipiImage) :=
  match cropFound region f.dims with
  | .error e => .error (.refused e)
  | .ok none => .ok (f.dims, img)
  | .ok (some rect) =>
    ((img.gather rect.dims.w rect.dims.h (fun i _ => i + rect.x) fun _ j => j + rect.y).mapError
      fun _ => .overrun).map fun out => (rect.dims, out)

end Png

/-- The image, scaled if that is asked for. -/
def scaledTo (size : SizeParts) (quality : ScalingMethod) (roi : Dims) (img : SipiImage) :
    Except PngError SipiImage :=
  match resolve none size roi with
  | .error e => .error (.refused e)
  | .ok r =>
    match residual size r with
    | none => .ok img
    | some (nnx, nny) => ((img.scaleBy nnx nny quality).mapError PngError.ofScale).map Prod.snd

/-- `if (force_bps_8) { img->to8bps(); }`. -/
def forcedTo8 (forceBps8 : Bool) (img : SipiImage) : Except PngError SipiImage :=
  if forceBps8 then img.to8bps.mapError fun _ => .overrun else .ok img

/-- `SipiIOPng::read`. -/
def Png.read (f : Png) (region : Region) (size : SizeParts) (quality : ScalingMethod)
    (forceBps8 : Bool) : Except PngError SipiImage := do
  let img ← f.decoded
  let (roi, img) ← f.cropped region img
  let img ← scaledTo size quality roi img
  forcedTo8 forceBps8 img

/-! ### What is read -/

variable {img : SipiImage}

namespace Png

variable {f : Png}

/-- The channels that libpng reports. -/
def channels (f : Png) : ℕ := f.info.colorType.channels

/-- An image with the channels of a PNG. -/
structure Kept (f : Png) (img : SipiImage) : Prop where
  nc : img.nc = f.channels
  photo : img.photo = f.photo
  es : img.es = f.es
  full : img.Full

/-- An image of a PNG with known sides and samples. -/
structure Sized (f : Png) (dims : Dims) (img : SipiImage) : Prop extends f.Kept img where
  nx : img.nx = dims.w
  ny : img.ny = dims.h
  inScale : img.InScale

theorem Kept.represented_iff (h : f.Kept img) : img.Represented ↔ f.AlphaListed := by
  obtain ⟨n, hn, hc⟩ := f.photo_channels
  rw [← f.alphaListed_iff]
  constructor
  · rintro ⟨-, m, hm, hnc⟩
    rw [h.photo] at hm
    cases hn.symm.trans hm
    rw [h.nc, channels, hc, h.es] at hnc
    omega
  · intro hl
    refine ⟨h.full, n, by rw [h.photo]; exact hn, ?_⟩
    rw [h.nc, channels, hc, h.es, hl]

theorem channels_bounds (f : Png) : 0 < f.channels ∧ f.channels ≤ 4 := by
  rw [channels]
  cases f.info.colorType <;> simp [PngColorType.channels]

theorem buffer_size (f : Png) :
    f.buffer.size = f.dims.w * f.dims.h * f.channels * (f.info.bitDepth / 8) ∧
      ¬ f.buffer.size < f.dims.h * f.info.rowbytes f.dims.w := by
  obtain ⟨bytes, hb, hp, hle⟩ : ∃ bytes, f.info.bitDepth = 8 * bytes ∧ 0 < bytes ∧ bytes ≤ 2 := by
    rw [info_bitDepth]
    split_ifs
    · exact ⟨2, rfl, Nat.two_pos, le_rfl⟩
    · exact ⟨1, rfl, Nat.one_pos, one_le_two⟩
  have hr : f.dims.h * f.info.rowbytes f.dims.w = f.dims.w * f.dims.h * f.channels * bytes := by
    have hbt : f.info.colorType.channels * (8 * bytes) = 8 * (f.channels * bytes) := Nat.mul_left_comm ..
    have hc := Nat.mul_pos f.channels_bounds.1 hp
    rw [PngInfo.rowbytes, hb, hbt, pngRowbytes, if_pos (by omega), Nat.mul_div_cancel_left _ (by omega)]
    ring
  have hlt : f.dims.w * f.dims.h * f.channels * bytes < 2 ^ 64 := by
    calc f.dims.w * f.dims.h * f.channels * bytes ≤ 1000000 * 1000000 * 4 * 2 := by
          gcongr
          · exact f.width_le
          · exact f.height_le
          · exact f.channels_bounds.2
      _ < 2 ^ 64 := by norm_num
  have hs : f.buffer.size = f.dims.w * f.dims.h * f.channels * bytes := by
    rw [buffer, hr, Nat.mod_eq_of_lt hlt]
  rw [hb, Nat.mul_div_cancel_left _ (by omega), hr]
  exact ⟨hs, hs.not_lt⟩

theorem header_bps (f : Png) : f.header.bps = if f.bitDepth = 16 then .sixteen else .eight := by
  simp only [header, info_bitDepth]
  split_ifs <;> simp_all

end Png

theorem swapWords_ends {n : ℕ} (hn : n < 2 ^ 31) {tmp : Buffer ℕ} (hsz : tmp.size = n)
    (hw : ∀ p, tmp.get p ≤ 65535) :
    Ends (swapWords n tmp) (fun out => out.size = n ∧ ∀ p, out.get p ≤ 65535) fun _ => False := by
  rw [swapWords, forCounter_of_lt hn]
  refine forCount_ends (fun _ (out : Buffer ℕ) => out.size = n ∧ ∀ p, out.get p ≤ 65535) ⟨hsz, hw⟩
    fun i out hi ho => ?_
  have hr : i < out.size := by rwa [ho.1]
  rw [Buffer.fetch_of_lt _ hr, ok_bind, Buffer.put_of_lt _ hr]
  refine ⟨ho.1, fun p => ?_⟩
  by_cases hp : p = i
  · rw [hp, Buffer.get_set_self, ntohs]
    omega
  · rw [Buffer.get_set_of_ne _ hp]
    exact ho.2 p

namespace Png

variable {f : Png}

theorem decoded_sized (hc : f.bitDepth = 16 → f.dims.w * f.dims.h * f.channels < 2 ^ 31) :
    ∃ img, f.decoded = .ok img ∧ f.Sized f.dims img := by
  obtain ⟨hs, hr⟩ := f.buffer_size
  have hbp := f.header_bps
  rw [info_bitDepth] at hs
  by_cases hb : f.bitDepth = 16
  · rw [if_pos hb] at hs hbp
    have hw : (f.header.withData f.buffer).pixels =
        ⟨f.buffer.size / 2, fun p => f.buffer.get (2 * p) + 256 * f.buffer.get (2 * p + 1)⟩ := by
      rw [SipiImage.withData, hbp]
    have hsz : (f.header.withData f.buffer).pixels.size = f.dims.w * f.dims.h * f.channels := by
      rw [hw, hs]
      exact Nat.mul_div_cancel _ Nat.two_pos
    have hrg : ∀ p, (f.header.withData f.buffer).pixels.get p ≤ 65535 := by
      intro p
      have hlo := (f.bytes (2 * p)).toNat_lt
      have hhi := (f.bytes (2 * p + 1)).toNat_lt
      rw [hw]
      show (f.bytes (2 * p)).toNat + 256 * (f.bytes (2 * p + 1)).toNat ≤ 65535
      omega
    obtain ⟨tmp, ht, hs', hsc⟩ := (swapWords_ends (hc hb) hsz hrg).exists_ok
    refine ⟨{ f.header with pixels := tmp }, ?_, ⟨rfl, rfl, rfl, hs'⟩, rfl, rfl, fun p _ => ?_⟩
    · rw [decoded, if_neg hr, hbp]
      exact congrArg (Except.map _) ht
    · rw [hbp]
      exact hsc p
  · rw [if_neg hb] at hs hbp
    refine ⟨{ f.header with pixels := f.buffer }, ?_, ⟨rfl, rfl, rfl, hs.trans (Nat.mul_one _)⟩, rfl, rfl,
      fun p _ => ?_⟩
    · rw [decoded, if_neg hr]
      simp only [hbp, SipiImage.withData]
    · rw [hbp]
      exact Nat.le_of_lt_succ (f.bytes p).toNat_lt

theorem decoded_overflow (hb : f.bitDepth = 16) (hc : 2 ^ 31 ≤ f.dims.w * f.dims.h * f.channels) :
    f.decoded = .error .overflow := by
  rw [decoded, if_neg f.buffer_size.2, header_bps, if_pos hb]
  exact congrArg (Except.map _) (forCounter_of_ge hc ..)

/-- The sides that a region leaves. -/
def roiOf (f : Png) (found : Option Rect) : Dims := (found.map Rect.dims).getD f.dims

variable {region : Region} {found : Option Rect}

theorem cropped_ok (hfn : cropFound region f.dims = .ok found) (h : f.Sized f.dims img) :
    ∃ out, f.cropped region img = .ok (f.roiOf found, out) ∧ f.Sized (f.roiOf found) out := by
  cases found with
  | none => exact ⟨img, by rw [cropped, hfn]; rfl, h⟩
  | some rect =>
    obtain ⟨hx, hy⟩ := crop_inside (crop_of_cropFound hfn)
    have hfl : Ends (fill ImageError.overrun 0 rect.dims.w rect.dims.h img.nc fun i j k =>
        img.pixels.fetch .overrun (index img.nx img.nc (i + rect.x) (j + rect.y) k))
        (Filled rect.dims.w rect.dims.h img.nc (fun _ _ _ v => v ≤ img.bps.fullScale)
          (rect.dims.w * rect.dims.h * img.nc)) fun _ => False := by
      refine fill_ends fun i hi j hj k hk => ?_
      have hlt : index img.nx img.nc (i + rect.x) (j + rect.y) k < img.pixels.size := by
        rw [h.full]
        refine index_lt ?_ ?_ hk
        · rw [h.nx]
          dsimp only [Option.getD_some] at hx
          omega
        · rw [h.ny]
          dsimp only [Option.getD_some] at hy
          omega
      rw [Buffer.fetch_of_lt _ hlt]
      exact h.inScale _ hlt
    obtain ⟨out, ho, hf⟩ := hfl.exists_ok
    refine ⟨img.withPixels rect.dims.w rect.dims.h out, ?_, ⟨h.nc, h.photo, h.es, hf.size⟩, rfl, rfl, ?_⟩
    · rw [cropped, hfn]
      dsimp only
      rw [SipiImage.gather, ho]
      rfl
    · intro p hp
      obtain ⟨x, hx, y, hy, k, hk, rfl⟩ := exists_index (hf.size ▸ hp)
      exact hf.get hx hy hk

theorem roiOf_le (hf : cropFound region f.dims = .ok found) :
    (f.roiOf found).w ≤ 1000000 ∧ (f.roiOf found).h ≤ 1000000 := by
  obtain ⟨hw, hh⟩ := crop_within (crop_of_cropFound hf)
  rw [roiOf, dims_getD]
  exact ⟨hw.trans f.width_le, hh.trans f.height_le⟩

end Png

theorem Png.Kept.scaled {f : Png} {out : SipiImage} (h : f.Kept img) {nnx nny : ℕ}
    {pixels : Except ScaleError (Buffer ℕ)} (hp : ∀ block, pixels = .ok block → block.size = nnx * nny * img.nc)
    {done : Bool} (ho : scaleWith img nnx nny pixels = .ok (done, out)) : f.Kept out := by
  unfold scaleWith at ho
  split_ifs at ho
  · obtain rfl : img = out := congrArg Prod.snd (Except.ok.inj ho)
    exact h
  · obtain ⟨block, hb, heq⟩ := map_eq_ok.mp ho
    obtain rfl : img.withPixels nnx nny block = out := congrArg Prod.snd heq
    exact ⟨h.nc, h.photo, h.es, hp block hb⟩

section
variable {f : Png} {roi : Dims} {img : SipiImage} {nnx nny : ℕ} {quality : ScalingMethod}

theorem Png.Sized.scaleBy_kept (h : f.Sized roi img) {done : Bool} {out : SipiImage}
    (ho : img.scaleBy nnx nny quality = .ok (done, out)) : f.Kept out := by
  cases quality with
  | high =>
    refine h.toKept.scaled (fun block hb => ?_) ho
    obtain ⟨tmp, out', hr⟩ :=
      SipiImage.exists_resampled h.full h.inScale (h.nx ▸ roi.w_pos) (h.ny ▸ roi.h_pos) nnx nny
    cases hr.resampled.symm.trans hb
    exact hr.size
  | medium | low => exact h.toKept.scaled (fun _ => size_of_fill) ho

/-- An interpolation can count the samples. -/
def Png.Counts (f : Png) (quality : ScalingMethod) (roi : Dims) (target : ℕ × ℕ) : Prop :=
  quality = .medium → Scalable roi target → roi.w * roi.h * f.channels ≤ 2 ^ 31

theorem Png.Sized.scaleBy_iff (h : f.Sized roi img) (hw : roi.w ≤ 1000000) (hh : roi.h ≤ 1000000)
    (hfit : quality = .medium → TableFits roi.w nnx ∧ TableFits roi.h nny) :
    (∃ result, img.scaleBy nnx nny quality = .ok result) ↔ f.Counts quality roi (nnx, nny) := by
  by_cases hs : Degenerate img nnx nny
  · refine iff_of_true ⟨(false, img), ?_⟩ fun _ hsc => ?_
    · cases quality with
      | high | medium | low => exact if_pos hs
    · obtain ⟨hn, hnn, hnx, hny⟩ := hsc
      rw [Degenerate, h.nx, h.ny] at hs
      dsimp only at hn hnn
      omega
  · cases quality with
    | high =>
      obtain ⟨done, out, ho, -⟩ := SipiImage.scale_reaches h.full h.inScale hs
      exact iff_of_true ⟨_, ho⟩ (by simp [Png.Counts])
    | low =>
      obtain ⟨done, out, ho, -⟩ := SipiImage.scaleFast_reaches h.full hs
      exact iff_of_true ⟨_, ho⟩ (by simp [Png.Counts])
    | medium =>
      have hnc : 0 < img.nc := by
        rw [h.nc]
        exact f.channels_bounds.1
      have hr : (∃ result, img.scaleMedium nnx nny = .ok result) ↔
          img.Reaches nnx nny (img.scaleMedium nnx nny) := by
        rw [SipiImage.scaleMedium, SipiImage.reaches_of_not_degenerate hs, scaleWith, if_neg hs]
        constructor
        · rintro ⟨result, hrs⟩
          obtain ⟨block, hb, -⟩ := map_eq_ok.mp hrs
          exact ⟨block, hb, size_of_fill hb⟩
        · rintro ⟨block, hb, -⟩
          exact ⟨_, map_eq_ok.mpr ⟨block, hb, rfl⟩⟩
      obtain ⟨hn, hnn, hnx, hny⟩ := SipiImage.two_le_of_not_degenerate hs
      have hx : asInt img.nx = img.nx := asInt_of_lt (by rw [h.nx]; omega)
      have hy : asInt img.ny = img.ny := asInt_of_lt (by rw [h.ny]; omega)
      obtain ⟨hfx, hfy⟩ := hfit rfl
      rw [← h.nx] at hfx
      rw [← h.ny] at hfy
      refine hr.trans ((SipiImage.scaleMedium_reaches_iff h.full hnc hs hfx hfy).trans ?_)
      rw [SipiImage.Countable, if_neg (by omega), h.nx, h.ny, h.nc]
      rw [h.nx] at hnx
      rw [h.ny] at hny
      exact ⟨fun hc _ _ => hc, fun hc => hc rfl ⟨hn, hnn, hnx, hny⟩⟩

end

namespace Png

variable {f : Png}

theorem Kept.forcedTo8 (h : f.Kept img) (forceBps8 : Bool) :
    ∃ out, Formats.forcedTo8 forceBps8 img = .ok out ∧ f.Kept out := by
  cases forceBps8 with
  | false => exact ⟨img, rfl, h⟩
  | true =>
    obtain ⟨out, ho, pixels, rfl, hs⟩ := (SipiImage.to8bps_block h.full).exists_ok
    refine ⟨{ img with bps := .eight, pixels := pixels }, ?_, h.nc, h.photo, h.es, hs.trans h.full⟩
    rw [Formats.forcedTo8, if_pos rfl, ho]
    rfl

/-- **What is read is represented**, unless refused. -/
def ReadsRepresented (f : Png) (region : Region) (size : SizeParts) (quality : ScalingMethod)
    (forceBps8 : Bool) : Prop :=
  Ends (f.read region size quality forceBps8) SipiImage.Represented fun e => ∃ why, e = .refused why

/-- The samples are counted, an alpha channel listed. -/
def Readable (f : Png) (region : Region) (size : SizeParts) (quality : ScalingMethod) : Prop :=
  (f.bitDepth = 16 → f.dims.w * f.dims.h * f.channels < 2 ^ 31) ∧
    ∀ found, cropFound region f.dims = .ok found → ∀ r, resolve none size (f.roiOf found) = .ok r →
      f.AlphaListed ∧ ∀ target ∈ residual size r, f.Counts quality (f.roiOf found) target

/-- The products of the tables are `size_t`s. -/
def Tabled (f : Png) (region : Region) (size : SizeParts) (quality : ScalingMethod) : Prop :=
  quality = .medium → ∀ found, cropFound region f.dims = .ok found → ∀ r, resolve none size (f.roiOf found) = .ok r →
    ∀ target ∈ residual size r, TableFits (f.roiOf found).w target.1 ∧ TableFits (f.roiOf found).h target.2

theorem finish_iff {roi : Dims} (h : f.Sized roi img) (hw : roi.w ≤ 1000000) (hh : roi.h ≤ 1000000)
    {size : SizeParts} {r : Resolved} (hr : resolve none size roi = .ok r) {quality : ScalingMethod}
    (hfit : quality = .medium → ∀ target ∈ residual size r, TableFits roi.w target.1 ∧ TableFits roi.h target.2)
    (forceBps8 : Bool) :
    Ends (scaledTo size quality roi img >>= Formats.forcedTo8 forceBps8) SipiImage.Represented
        (fun e => ∃ why, e = .refused why) ↔
      f.AlphaListed ∧ ∀ target ∈ residual size r, f.Counts quality roi target := by
  have hf : ∀ img, f.Kept img → (Ends (Formats.forcedTo8 forceBps8 img) SipiImage.Represented
      (fun e => ∃ why, e = .refused why) ↔ f.AlphaListed) := by
    intro img hi
    obtain ⟨out, ho, hk⟩ := hi.forcedTo8 forceBps8
    rw [ho]
    exact hk.represented_iff
  simp only [scaledTo, hr]
  cases ht : residual size r with
  | none =>
    rw [ok_bind, hf img h.toKept]
    simp
  | some target =>
    simp only [Option.mem_some_iff, forall_eq', ← h.scaleBy_iff hw hh fun hq => hfit hq target ht]
    cases ho : img.scaleBy target.1 target.2 quality with
    | error e =>
      refine iff_of_false ?_ ?_
      · rintro ⟨why, hwh⟩
        cases e <;> cases hwh
      · rintro ⟨-, result, hok⟩
        cases hok
    | ok result =>
      refine Iff.trans (hf result.2 (h.scaleBy_kept ho)) ?_
      simp

theorem read_represented_iff {region : Region} {size : SizeParts} {quality : ScalingMethod}
    (hfit : f.Tabled region size quality) (forceBps8 : Bool) :
    f.ReadsRepresented region size quality forceBps8 ↔ f.Readable region size quality := by
  by_cases hc : f.bitDepth = 16 → f.dims.w * f.dims.h * f.channels < 2 ^ 31
  · obtain ⟨img, hi, hs⟩ := decoded_sized hc
    rw [ReadsRepresented, Readable, read, hi, ok_bind, and_iff_right hc]
    cases hf : cropFound region f.dims with
    | error e =>
      rw [cropped, hf]
      exact iff_of_true ⟨e, rfl⟩ (by simp)
    | ok found =>
      obtain ⟨out, ho, hro⟩ := cropped_ok hf hs
      obtain ⟨hw, hh⟩ := roiOf_le hf
      rw [ho, ok_bind]
      cases hr : resolve none size (f.roiOf found) with
      | error e =>
        simp only [scaledTo, hr, error_bind]
        exact iff_of_true ⟨e, rfl⟩ (by simp [hr])
      | ok r =>
        refine Iff.trans (finish_iff hro hw hh hr (fun hq => hfit hq found hf r hr) forceBps8) ?_
        simp [hr]
  · refine iff_of_false ?_ fun h => hc h.1
    push Not at hc
    rw [ReadsRepresented, read, decoded_overflow hc.1 hc.2]
    rintro ⟨why, hwh⟩
    cases hwh

end Png

/-- **When the representation invariant holds**: after reading a PNG, and after each operation on an image of which
it holds. -/
theorem representation_iff (f : Png) (region : Region) (size : SizeParts) (quality : ScalingMethod)
    (forceBps8 : Bool) (img : SipiImage) :
    (f.Tabled region size quality →
      (f.ReadsRepresented region size quality forceBps8 ↔ f.Readable region size quality)) ∧
    (img.Represented →
      (∀ (cms : Cms) (icc : Option (Icc cms)) (predef : PredefinedProfiles) (newBps : ℕ),
        predef = .sRGB ∨ predef = .grayD50 →
          (SipiImage.Keeps (IccFault.left img) (img.convertToIcc cms icc (cms.icc predef) newBps) ↔
            img.es = [] ∨ ¬ img.Converts cms icc (cms.icc predef) newBps)) ∧
      SipiImage.Keeps (BitonalError.left img) img.to8bps ∧
      (∀ (cms : Cms) (icc : Option (Icc cms)),
        SipiImage.Keeps (BitonalError.left img) (img.toBitonal (SipiImage.grayLevels cms icc)) ↔
          img.IsGray ∨ img.es = [] ∨ ¬ img.Converts cms icc (cms.icc .grayD50) 8) ∧
      (SipiImage.Keeps (fun _ => none) img.convertYCC2RGB ↔
        (img.bps = .eight ∧ 3 ≤ img.nc) ∨ img.nx = 0 ∨ img.ny = 0) ∧
      ∀ channel, img.IsExtra channel → ∀ force,
        (SipiImage.Keeps (ChannelError.left img) (img.removeChannel channel force) ↔
          img.nc ≠ 2 ∧ (channel + 1 = img.nc ∨ img.nc ≤ 3 ∨ channel < 3 ∨ img.nx = 0 ∨ img.ny = 0))) := by
  refine ⟨fun hfit => Png.read_represented_iff hfit forceBps8, fun h => ⟨?_, SipiImage.to8bps_keeps h, ?_,
    SipiImage.convertYCC2RGB_keeps_iff h, ?_⟩⟩
  · intro cms icc predef newBps hp
    exact SipiImage.convertToIcc_keeps_iff h cms icc hp newBps
  · intro cms icc
    exact SipiImage.toBitonal_keeps_iff h cms icc
  · intro channel he force
    exact SipiImage.removeChannel_keeps_iff h he force

/-! ### One pixel -/

theorem eight_mem_bitDepths (c : PngColorType) : 8 ∈ c.bitDepths := by
  cases c <;> decide

theorem one_le_million : 1 ≤ 1000000 := by norm_num

/-- A file with one black pixel of eight bits. -/
def onePixel (c : PngColorType) (trns bkgd : Bool) (honly : trns = true → ¬ c.HasAlpha) : Png where
  dims := ⟨1, 1, Nat.one_pos, Nat.one_pos⟩
  colorType := c
  bitDepth := 8
  trns := trns
  bkgd := bkgd
  bytes := fun _ => 0
  exif := none
  bitDepth_mem := eight_mem_bitDepths c
  trns_only := honly
  width_le := one_le_million
  height_le := one_le_million

theorem gray_not_hasAlpha : ¬ PngColorType.gray.HasAlpha := by decide

theorem origin_nonneg : (0 : ℚ) ≤ 0 ∧ (0 : ℚ) ≤ 0 ∧ (0 : ℚ) ≤ 0 ∧ (0 : ℚ) ≤ 0 := ⟨le_rfl, le_rfl, le_rfl, le_rfl⟩

/-- The whole image. -/
def wholeImage : Region := ⟨.full, 0, 0, 0, 0, origin_nonneg⟩

def fullSize : SizeParts := ⟨.full, false, 0, 0, 0, 0⟩

/-- A colour management that makes everything black. -/
def blackCms : Cms where
  Profile := PredefinedProfiles
  predefined := id
  colorSpace := fun p => if p = .grayD50 then .gray else .rgb
  createTransform := fun _ _ _ _ => some fun _ _ => 0
  colorSpace_sRGB := rfl
  colorSpace_gray := rfl

theorem lists_not_kept :
    ¬ (onePixel .gray true false fun _ => gray_not_hasAlpha).ReadsRepresented wholeImage fullSize .high false ∧
      ¬ (onePixel .rgba false true fun h => absurd h Bool.false_ne_true).ReadsRepresented wholeImage fullSize .high
        false ∧
      (SipiImage.colored [.assocAlpha]).Represented ∧
      ¬ SipiImage.Keeps (IccFault.left (SipiImage.colored [.assocAlpha]))
        ((SipiImage.colored [.assocAlpha]).convertToIcc blackCms (some (blackCms.icc .sRGB)) (blackCms.icc .sRGB) 8) ∧
      (SipiImage.grayRow 1 2 .eight fun _ => 0).Represented ∧
      ¬ SipiImage.Keeps (ChannelError.left (SipiImage.grayRow 1 2 .eight fun _ => 0))
        ((SipiImage.grayRow 1 2 .eight fun _ => 0).removeChannel 1 false) := by
  refine ⟨?_, ?_, ⟨rfl, 3, rfl, rfl⟩, ?_, ⟨rfl, 1, rfl, rfl⟩, ?_⟩
  · rintro ⟨-, n, hn, hnc⟩
    cases hn
    cases hnc
  · rintro ⟨-, n, hn, hnc⟩
    cases hn
    cases hnc
  · rintro ⟨-, n, hn, hnc⟩
    cases hn
    cases hnc
  · rintro ⟨left, hl, -, n, hn, hnc⟩
    cases hl
    cases hn
    cases hnc

theorem representation_plain :
    (onePixel .rgb false false fun h => absurd h Bool.false_ne_true).ReadsRepresented wholeImage fullSize .high true ∧
      (SipiImage.colored []).Represented ∧
      SipiImage.Keeps (IccFault.left (SipiImage.colored []))
        ((SipiImage.colored []).convertToIcc blackCms none (blackCms.icc .sRGB) 16) ∧
      SipiImage.Keeps (BitonalError.left (SipiImage.colored []))
        ((SipiImage.colored []).toBitonal (SipiImage.grayLevels blackCms none)) ∧
      SipiImage.Keeps (fun _ => none) (SipiImage.colored []).convertYCC2RGB ∧
      (SipiImage.colored [.assocAlpha]).IsExtra 3 ∧
      SipiImage.Keeps (ChannelError.left (SipiImage.colored [.assocAlpha]))
        ((SipiImage.colored [.assocAlpha]).removeChannel 3 true) := by
  obtain ⟨hrd, hk⟩ := representation_iff (onePixel .rgb false false fun h => absurd h Bool.false_ne_true) wholeImage
    fullSize .high true (SipiImage.colored [])
  have hp : (SipiImage.colored []).Represented := ⟨rfl, 3, rfl, rfl⟩
  have ha : (SipiImage.colored [.assocAlpha]).Represented := ⟨rfl, 3, rfl, rfl⟩
  have he : (SipiImage.colored [.assocAlpha]).IsExtra 3 := ⟨3, rfl, le_rfl, Nat.lt_succ_self 3⟩
  obtain ⟨hi, -, hb, hy, -⟩ := hk hp
  obtain ⟨-, -, -, -, hr⟩ := (representation_iff (onePixel .rgb false false fun h => absurd h Bool.false_ne_true)
    wholeImage fullSize .high true (SipiImage.colored [.assocAlpha])).2 ha
  have hfit : (onePixel .rgb false false fun h => absurd h Bool.false_ne_true).Tabled wholeImage fullSize .high :=
    by simp [Png.Tabled]
  refine ⟨(hrd hfit).mpr ⟨fun hbt => ?_, fun _ _ _ _ => ⟨fun ht => ?_, by simp [Png.Counts]⟩⟩, hp,
    (hi _ _ _ _ (Or.inl rfl)).mpr (Or.inl rfl), (hb _ _).mpr (Or.inr (Or.inl rfl)),
    hy.mpr (Or.inl ⟨rfl, le_rfl⟩), he, (hr 3 he true).mpr ⟨by decide, Or.inl rfl⟩⟩
  · cases hbt
  · cases ht

end Sipi.Formats
