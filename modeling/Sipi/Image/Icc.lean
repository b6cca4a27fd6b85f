import Sipi.Theory.Fallible
import Sipi.Image.Bitonal

/-!
# Colour profiles

`SipiImage::convertToIcc` in `src/SipiImage.cpp` converts an image to another colour profile, with Little CMS.

## Honest scope

A transform reads the samples that the format of the source describes. The size of the new block is below `2^64`.
The texts of the errors are left out.
-/

namespace Sipi.Image

open Sipi.Theory

/-- `cmsColorSpaceSignature`. -/
inductive ColorSpace where
  | lab
  | ycbcr
  | rgb
  | gray
  | cmyk
  | other (channels : ℕ)
  deriving DecidableEq

/-- `cmsChannelsOf`. -/
def ColorSpace.channelsOf : ColorSpace → ℕ
  | .lab | .ycbcr | .rgb => 3
  | .gray => 1
  | .cmyk => 4
  | .other channels => channels

/-- `PredefinedProfiles`. -/
inductive PredefinedProfiles where
  | undefined
  | unknown
  | sRGB
  | adobeRGB
  | rgb
  | cmykStandard
  | grayD50
  | lumD65
  | rommGray
  | lab
  deriving DecidableEq

/-- `cmsUInt32Number`, as a format. -/
abbrev Format := UInt32

/-- What is made of a block of samples. -/
abbrev Transform := Buffer ℕ → ℕ → UInt16

/-- Little CMS. -/
structure Cms where
  Profile : Type
  predefined : PredefinedProfiles → Profile
  colorSpace : Profile → ColorSpace
  createTransform : Profile → Format → Profile → Format → Option Transform
  colorSpace_sRGB : colorSpace (predefined .sRGB) = .rgb
  colorSpace_gray : colorSpace (predefined .grayD50) = .gray

/-- `Icc`. -/
structure Icc (cms : Cms) where
  iccProfile : cms.Profile
  profileType : PredefinedProfiles

/-- `Icc(predef)`. -/
def Cms.icc (cms : Cms) (predef : PredefinedProfiles) : Icc cms := ⟨cms.predefined predef, predef⟩

/-- What is thrown when an image is converted. -/
inductive IccError where
  | unassigned (nc : ℕ)
  | bits (bps : ℕ)
  | photometric (photo : PhotometricInterpretation)
  | colorSpace
  | transform
  deriving DecidableEq

/-- What goes wrong. -/
inductive IccFault where
  | thrown (e : IccError)
  | overrun
  deriving DecidableEq

/-- `PT_GRAY`, `PT_RGB` and so on. -/
def ColorSpace.pt : ColorSpace → Option Format
  | .gray => some 3
  | .rgb => some 4
  | .cmyk => some 6
  | .ycbcr => some 7
  | .lab => some 10
  | .other _ => none

/-- `BYTES_SH | CHANNELS_SH | COLORSPACE_SH`. -/
def formatter (bps : Depth) (nc : ℕ) (pt : Format) : Format :=
  (match bps with | .eight => 1 | .sixteen => 2) ||| (UInt32.ofNat nc <<< 3) ||| ((0 : Format) <<< 12) ||| (pt <<< 16)

/-- `Icc::iccFormatter(bps)`: the format of a target. -/
def ColorSpace.iccFormatter (bps : Depth) (c : ColorSpace) : Except IccError Format :=
  match c.pt with
  | some pt => .ok (formatter bps c.channelsOf pt)
  | none => .error .colorSpace

/-- The colour space of an interpretation. -/
def PhotometricInterpretation.colorSpace : PhotometricInterpretation → Option ColorSpace
  | .miniswhite | .minisblack => some .gray
  | .rgb => some .rgb
  | .separated => some .cmyk
  | .ycbcr => some .ycbcr
  | PhotometricInterpretation.cielab | .icclab | .itulab => some .lab
  | .palette | .mask | .cfa | .logl | .logluv | .linearraw | .invalid => none

/-- `Icc::iccFormatter(bps, nc, photo)`. -/
def PhotometricInterpretation.iccFormatter (bps : Depth) (nc : ℕ) (photo : PhotometricInterpretation) :
    Except IccError Format :=
  match photo.colorSpace.bind ColorSpace.pt with
  | some pt => .ok (formatter bps nc pt)
  | none => .error (.photometric photo)

/-! ### The conversion -/

/-- The photometric interpretation of the result. -/
def PredefinedProfiles.photo (old : PhotometricInterpretation) : PredefinedProfiles → PhotometricInterpretation
  | .grayD50 => .minisblack
  | .rgb | .sRGB | .adobeRGB => .rgb
  | .cmykStandard => .separated
  | .lab => PhotometricInterpretation.cielab
  | .undefined | .unknown | .lumD65 | .rommGray => old

/-- `new_bps`. -/
def depthOf : ℕ → Except IccError Depth
  | 8 => .ok .eight
  | 16 => .ok .sixteen
  | bps => .error (.bits bps)

namespace SipiImage

section
variable (cms : Cms) (icc : Option (Icc cms)) (target : Icc cms) (newBps : ℕ) (img : SipiImage)

/-- The profile of the image, or an assumed one. -/
def sourceIcc : Except IccError (Icc cms) :=
  match icc with
  | some icc => .ok icc
  | none =>
    match img.nc with
    | 1 => .ok (cms.icc .grayD50)
    | 3 => .ok (cms.icc .sRGB)
    | 4 => .ok (cms.icc .cmykStandard)
    | nc => .error (.unassigned nc)

/-- The first half of `convertToIcc`. -/
def hTransform : Except IccError (Depth × Transform) := do
  let icc ← img.sourceIcc cms icc
  let bps ← depthOf newBps
  let inFormatter ← img.photo.iccFormatter img.bps img.nc
  let outFormatter ← (cms.colorSpace target.iccProfile).iccFormatter bps
  match cms.createTransform icc.iccProfile inFormatter target.iccProfile outFormatter with
  | none => .error .transform
  | some transform => return (bps, transform)

/-- `cmsDoTransform`, with 32 bits of pixels. -/
def doTransform (nnc : ℕ) (bps : Depth) (transform : Transform) : Except IccFault (Buffer ℕ) :=
  let count := img.nx * img.ny % 2 ^ 32
  if img.pixels.size < count * img.nc then .error .overrun
  else .ok ⟨img.nx * img.ny * nnc, fun p =>
    if p < count * nnc then (transform img.pixels p).toNat % (bps.fullScale + 1) else 0⟩

/-- `SipiImage::convertToIcc`. -/
def convertToIcc : Except IccFault SipiImage := do
  let nnc := (cms.colorSpace target.iccProfile).channelsOf
  let (bps, transform) ← (img.hTransform cms icc target newBps).mapError .thrown
  let outbuf ← img.doTransform nnc bps transform
  return { img with
    nc := nnc
    bps := bps
    photo := target.profileType.photo img.photo
    pixels := outbuf }

/-- Little CMS creates the transform. -/
def Creates (bps : Depth) (transform : Transform) : Prop :=
  ∃ source inFormatter outFormatter, img.sourceIcc cms icc = .ok source ∧ depthOf newBps = .ok bps ∧
    img.photo.iccFormatter img.bps img.nc = .ok inFormatter ∧
    (cms.colorSpace target.iccProfile).iccFormatter bps = .ok outFormatter ∧
    cms.createTransform source.iccProfile inFormatter target.iccProfile outFormatter = some transform

/-- **There is a transform for the image.** -/
def Converts : Prop := ∃ bps transform, img.Creates cms icc target newBps bps transform

end

section
variable {cms : Cms} {icc : Option (Icc cms)} {target : Icc cms} {newBps : ℕ} {img : SipiImage} {bps : Depth}
  {transform : Transform}

theorem hTransform_eq_ok :
    img.hTransform cms icc target newBps = .ok (bps, transform) ↔
      img.Creates cms icc target newBps bps transform := by
  simp only [hTransform, bind_eq_ok]
  constructor
  · rintro ⟨source, hs, bps', hb, inFormatter, hin, outFormatter, ho, h⟩
    cases hc : cms.createTransform source.iccProfile inFormatter target.iccProfile outFormatter with
    | none => simp [hc] at h
    | some transform' =>
      rw [hc] at h
      cases h
      exact ⟨source, inFormatter, outFormatter, hs, hb, hin, ho, hc⟩
  · rintro ⟨source, inFormatter, outFormatter, hs, hb, hin, ho, hc⟩
    refine ⟨source, hs, bps, hb, inFormatter, hin, outFormatter, ho, ?_⟩
    rw [hc]
    rfl

theorem Full.doTransform (hf : img.Full) (nnc : ℕ) (bps : Depth) (transform : Transform) :
    ∃ outbuf, img.doTransform nnc bps transform = .ok outbuf ∧ outbuf.size = img.nx * img.ny * nnc := by
  have hc : img.nx * img.ny % 2 ^ 32 * img.nc ≤ img.pixels.size := by
    rw [hf]
    exact Nat.mul_le_mul_right _ (Nat.mod_le _ _)
  exact ⟨_, if_neg (Nat.not_lt.mpr hc), rfl⟩

theorem convertToIcc_of_converts (hf : img.Full) (h : img.Converts cms icc target newBps) :
    ∃ bps outbuf, img.convertToIcc cms icc target newBps = .ok { img with
        nc := (cms.colorSpace target.iccProfile).channelsOf
        bps := bps
        photo := target.profileType.photo img.photo
        pixels := outbuf } ∧
      outbuf.size = img.nx * img.ny * (cms.colorSpace target.iccProfile).channelsOf := by
  obtain ⟨bps, transform, hc⟩ := h
  obtain ⟨outbuf, ho, hs⟩ := hf.doTransform (cms.colorSpace target.iccProfile).channelsOf bps transform
  refine ⟨bps, outbuf, ?_, hs⟩
  rw [convertToIcc, hTransform_eq_ok.mpr hc]
  simp only [Except.mapError, ok_bind, ho]
  rfl

theorem convertToIcc_of_not_converts (h : ¬ img.Converts cms icc target newBps) :
    ∃ e, img.convertToIcc cms icc target newBps = .error (.thrown e) := by
  cases ht : img.hTransform cms icc target newBps with
  | ok r => exact absurd ⟨r.1, r.2, hTransform_eq_ok.mp ht⟩ h
  | error e =>
    refine ⟨e, ?_⟩
    rw [convertToIcc, ht]
    rfl

/-- The gray levels for `toBitonal`. -/
def grayLevels (cms : Cms) (icc : Option (Icc cms)) (img : SipiImage) : Option (ℕ → UInt8) :=
  match img.convertToIcc cms icc (cms.icc .grayD50) 8 with
  | .ok out => some fun p => UInt8.ofNat (out.pixels.get p)
  | .error _ => none

theorem grayLevels_eq_none_iff (hf : img.Full) :
    grayLevels cms icc img = none ↔ ¬ img.Converts cms icc (cms.icc .grayD50) 8 := by
  unfold grayLevels
  by_cases hc : img.Converts cms icc (cms.icc .grayD50) 8
  · obtain ⟨bps, outbuf, ho, -⟩ := convertToIcc_of_converts hf hc
    simp [ho, hc]
  · obtain ⟨e, he⟩ := convertToIcc_of_not_converts hc
    simp [he, hc]

end

end SipiImage

end Sipi.Image
