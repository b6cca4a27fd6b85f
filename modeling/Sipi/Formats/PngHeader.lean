import Sipi.Geometry.Size
import Sipi.Image.Representation

/-!
# The header of a PNG file

`SipiIOPng::read` in `src/formats/SipiIOPng.cpp` lets libpng transform what it reads: few bits become eight, a
palette becomes RGB, a `tRNS` chunk an alpha channel, and the color of a `bKGD` chunk is put behind the image.

## Honest scope

libpng transforms as its manual says, with its default limits. Texts, profiles and resolutions are left out.
-/

namespace Sipi.Formats

open Sipi.Theory Sipi.Image

/-! ### What libpng does -/

/-- `color_type`. -/
inductive PngColorType where
  | gray
  | grayAlpha
  | palette
  | rgb
  | rgba
  deriving DecidableEq

namespace PngColorType

/-- The bits of a sample that a color type allows. -/
def bitDepths : PngColorType → List ℕ
  | .gray => [1, 2, 4, 8, 16]
  | .palette => [1, 2, 4, 8]
  | .grayAlpha | .rgb | .rgba => [8, 16]

/-- The color type has an alpha channel. -/
def HasAlpha (c : PngColorType) : Prop := c = .grayAlpha ∨ c = .rgba

instance (c : PngColorType) : Decidable c.HasAlpha := inferInstanceAs (Decidable (_ ∨ _))

/-- `color_type | PNG_COLOR_MASK_ALPHA`. -/
def addAlpha : PngColorType → PngColorType
  | .gray => .grayAlpha
  | .rgb => .rgba
  | c => c

/-- `color_type & ~PNG_COLOR_MASK_ALPHA`. -/
def dropAlpha : PngColorType → PngColorType
  | .grayAlpha => .gray
  | .rgba => .rgb
  | c => c

/-- `png_get_channels`. -/
def channels : PngColorType → ℕ
  | .gray | .palette => 1
  | .grayAlpha => 2
  | .rgb => 3
  | .rgba => 4

end PngColorType

/-- What libpng finds in a file that it accepts. -/
structure Png where
  dims : Geometry.Dims
  colorType : PngColorType
  bitDepth : ℕ
  trns : Bool
  bkgd : Bool
  bytes : ℕ → UInt8
  exif : Option (Option Orientation)
  bitDepth_mem : bitDepth ∈ colorType.bitDepths
  trns_only : trns = true → ¬ colorType.HasAlpha
  width_le : dims.w ≤ 1000000
  height_le : dims.h ≤ 1000000

/-- The transforms that are asked for. -/
structure PngTransforms where
  expand : Bool := false
  expandTrns : Bool := false
  stripAlpha : Bool := false

namespace PngTransforms

/-- `png_set_expand_gray_1_2_4_to_8`. -/
def setExpandGray (t : PngTransforms) : PngTransforms := { t with expand := true }

/-- `png_set_palette_to_rgb`. -/
def setPaletteToRgb (t : PngTransforms) : PngTransforms := { t with expand := true, expandTrns := true }

/-- `png_set_tRNS_to_alpha`. -/
def setTrnsToAlpha (t : PngTransforms) : PngTransforms := { t with expand := true, expandTrns := true }

/-- `png_set_background`, for the channels. -/
def setBackground (t : PngTransforms) : PngTransforms := { t with stripAlpha := true }

end PngTransforms

/-- What libpng reports after the transforms. -/
structure PngInfo where
  colorType : PngColorType
  bitDepth : ℕ

/-- `PNG_ROWBYTES`. -/
def pngRowbytes (pixelBits width : ℕ) : ℕ :=
  if 8 ≤ pixelBits then width * (pixelBits / 8) else (width * pixelBits + 7) / 8

/-- `png_get_rowbytes`. -/
def PngInfo.rowbytes (info : PngInfo) (width : ℕ) : ℕ :=
  pngRowbytes (info.colorType.channels * info.bitDepth) width

namespace Png

variable (f : Png)

/-- What `PNG_EXPAND` makes of the header. -/
def expanded (t : PngTransforms) : PngInfo :=
  if f.colorType = .palette then ⟨if f.trns then .rgba else .rgb, 8⟩
  else ⟨if f.trns && t.expandTrns then f.colorType.addAlpha else f.colorType, max f.bitDepth 8⟩

/-- `png_read_update_info`. -/
def updateInfo (t : PngTransforms) : PngInfo :=
  let info := if t.expand then f.expanded t else ⟨f.colorType, f.bitDepth⟩
  if t.stripAlpha then { info with colorType := info.colorType.dropAlpha } else info

/-- The transforms of `switch (color_type)`. -/
def switchTransforms : PngTransforms :=
  match f.colorType with
  | .gray | .grayAlpha => ({} : PngTransforms).setExpandGray
  | .palette => ({} : PngTransforms).setPaletteToRgb
  | .rgb | .rgba => {}

/-- The transforms that the reader asks for. -/
def transforms : PngTransforms :=
  let t := f.switchTransforms
  let t := if f.trns then t.setTrnsToAlpha else t
  if f.bkgd then t.setBackground else t

/-- What libpng reports to the reader. -/
def info : PngInfo := f.updateInfo f.transforms

/-- `img->photo`, from `switch (color_type)`. -/
def photo : PhotometricInterpretation :=
  match f.colorType with
  | .gray | .grayAlpha => .minisblack
  | .palette | .rgb | .rgba => .rgb

/-- `img->es`, by color type. -/
def es : List ExtraSamples :=
  match f.colorType with
  | .gray | .rgb => []
  | .grayAlpha | .rgba => [.assocAlpha]
  | .palette => if f.info.colorType.channels = 4 then [.assocAlpha] else []

end Png

/-! ### What libpng reports 
-/

namespace Png

variable (f : Png)

@[simp] theorem transforms_stripAlpha : f.transforms.stripAlpha = f.bkgd := by
  unfold transforms switchTransforms
  cases f.colorType <;> cases f.trns <;> cases f.bkgd <;> rfl

@[simp] theorem transforms_expandTrns : f.transforms.expandTrns = (f.trns || f.colorType = .palette) := by
  unfold transforms switchTransforms
  cases f.colorType <;> cases f.trns <;> cases f.bkgd <;> rfl

@[simp] theorem transforms_expand :
    f.transforms.expand = (f.trns || (f.colorType ≠ .rgb && f.colorType ≠ .rgba)) := by
  unfold transforms switchTransforms
  cases f.colorType <;> cases f.trns <;> cases f.bkgd <;> rfl

theorem bitDepth_cases :
    (f.bitDepth = 16 ∧ f.colorType ≠ .palette) ∨
      (f.bitDepth ≤ 8 ∧ (f.colorType = .rgb ∨ f.colorType = .rgba → f.bitDepth = 8)) := by
  have hm := f.bitDepth_mem
  cases hc : f.colorType <;> simp [hc, PngColorType.bitDepths] at hm ⊢ <;> omega

theorem expanded_bitDepth (t : PngTransforms) :
    (f.expanded t).bitDepth = if f.colorType = .palette then 8 else max f.bitDepth 8 := by
  unfold expanded
  split_ifs <;> rfl

theorem info_bitDepth : f.info.bitDepth = if f.bitDepth = 16 then 16 else 8 := by
  have hi : f.info.bitDepth =
      if f.transforms.expand then (f.expanded f.transforms).bitDepth else f.bitDepth := by
    unfold info updateInfo
    split_ifs <;> rfl
  rw [hi, expanded_bitDepth, transforms_expand]
  rcases f.bitDepth_cases with ⟨hs, hp⟩ | ⟨hle, hr⟩
  · simp [hs, hp]
  · rw [if_neg (by omega : f.bitDepth ≠ 16), max_eq_right hle, ite_self, ite_eq_left_iff]
    intro he
    apply hr
    simp only [Bool.or_eq_true, Bool.and_eq_true, decide_eq_true_eq, not_or, not_and_or, not_not] at he
    exact he.2

/-- An alpha channel is left, without a background. -/
def LeavesAlpha (f : Png) : Prop := (f.colorType.HasAlpha ∨ f.trns = true) ∧ f.bkgd = false

instance (f : Png) : Decidable f.LeavesAlpha := inferInstanceAs (Decidable (_ ∧ _))

theorem photo_channels :
    ∃ n, f.photo.channels = some n ∧ f.info.colorType.channels = n + if f.LeavesAlpha then 1 else 0 := by
  have ho := f.trns_only
  cases hc : f.colorType <;> cases ht : f.trns <;> cases hb : f.bkgd <;>
    simp [hc, ht, PngColorType.HasAlpha] at ho <;>
    simp [photo, info, updateInfo, expanded, LeavesAlpha, hc, ht, hb, PngColorType.HasAlpha,
      PngColorType.addAlpha, PngColorType.dropAlpha, PngColorType.channels, PhotometricInterpretation.channels]

/-- The alpha channel that is left is listed. -/
def AlphaListed (f : Png) : Prop :=
  match f.colorType with
  | .gray | .rgb => f.trns = true → f.bkgd = true
  | .grayAlpha | .rgba => f.bkgd = false
  | .palette => True

theorem alphaListed_iff : f.es.length = (if f.LeavesAlpha then 1 else 0) ↔ f.AlphaListed := by
  obtain ⟨n, hn, hc⟩ := f.photo_channels
  have ho := f.trns_only
  rw [es, AlphaListed, hc]
  unfold photo at hn
  cases hcl : f.colorType <;> cases ht : f.trns <;> cases hb : f.bkgd <;>
    simp_all [LeavesAlpha, PngColorType.HasAlpha, PhotometricInterpretation.channels] <;> omega

end Png

end Sipi.Formats
