import Sipi.Geometry.Size
import Sipi.Image.Scale
import Sipi.Throttling.Budget
import Mathlib.Analysis.SpecialFunctions.Trigonometric.Bounds
import Mathlib.Data.List.ReduceOption

/-!
# The estimate of the memory a decode takes

`estimate_peak_memory` of `throttling/cpp/SipiPeakMemory.h` is what the memory budget charges for a decode.

## Honest scope

Sines, cosines and square roots are exact. A sample of more than eight bits takes two bytes. Converting a whole
image to eight bits for a JPEG, and the dithering of a bitonal image, are not among the steps.
-/

namespace Sipi.Throttling

open Sipi.Geometry Sipi.Iiif
open Sipi.Image (ScalingMethod)

/-- A sum of `size_t` numbers. -/
def sizeAdd (a b : ℕ) : ℕ := (a + b) % 2 ^ 64

/-- The bytes of a buffer, clamped. -/
def safeBuf (w h bpp : ℕ) : ℕ :=
  if w = 0 ∨ h = 0 then 0
  else if sizeMax / h < w then sizeMax
  else if sizeMax / bpp < w * h then sizeMax
  else w * h * bpp

/-- `ceil(sqrt(n))`. -/
def ceilSqrt (n : ℕ) : ℕ := if n.sqrt * n.sqrt = n then n.sqrt else n.sqrt + 1

/-- The angle as an `int`, within one turn. -/
def rotInt (rotation : ℚ) : ℤ :=
  let r := (if rotation < 2 ^ 31 then ⌊rotation⌋ else -2 ^ 31).tmod 360
  if r < 0 then r + 360 else r

/-- `rot_w` and `rot_h`. -/
def rotSides (w h : ℕ) (rot : ℤ) : ℕ × ℕ :=
  if rot = 90 ∨ rot = 270 then (h, w)
  else if rot ≠ 0 ∧ rot ≠ 180 then (ceilSqrt (w * w + h * h), ceilSqrt (w * w + h * h))
  else (w, h)

/-- The bytes of a sample, as estimated. -/
def bytesPerSample (bps : ℕ) : ℕ := max (bps / 8) 1

/-- `estimate_peak_memory`. -/
def estimatePeakMemory (decode out : Dims) (nc bps : ℕ) (rotation : ℚ) (needsIcc : Bool) : ℕ :=
  let channels := if 0 < nc then nc else 4
  let bpp := channels * bytesPerSample bps
  let bufDecode := safeBuf decode.w decode.h bpp
  let bufScaled := safeBuf out.w out.h bpp
  let rot := rotInt rotation
  let sides := rotSides out.w out.h rot
  let bufRotated := safeBuf sides.1 sides.2 bpp
  let bufFinal := if needsIcc then safeBuf sides.1 sides.2 bpp else 0
  let needsScale := out.w ≠ decode.w ∨ out.h ≠ decode.h
  let input := if needsScale then bufScaled else bufDecode
  let scalePeak := if needsScale then sizeAdd (sizeAdd bufDecode bufScaled) (bufScaled / 2) else 0
  let rotatePeak := if rot ≠ 0 then sizeAdd input bufRotated else 0
  let iccPeak := if needsIcc then sizeAdd (if rot ≠ 0 then bufRotated else input) bufFinal else 0
  max (max (max bufDecode scalePeak) rotatePeak) iccPeak

/-! ### The decode -/

/-- What `build_image_response` does. -/
structure Decode where
  decode : Dims
  out : Dims
  nc : ℕ
  nc_pos : 0 < nc
  bps : ℕ
  bps_bounds : 1 ≤ bps ∧ bps ≤ 16
  angle : ℚ
  angle_nonneg : 0 ≤ angle
  mirror : Bool
  quality : QualityKind
  gray : Bool
  scaling : Option ScalingMethod
  unscaled : scaling = none → out = decode

namespace Decode

/-- Two rows and two columns in both images. -/
def Scalable (d : Decode) : Prop := 1 < d.out.w ∧ 1 < d.out.h ∧ 1 < d.decode.w ∧ 1 < d.decode.h

instance (d : Decode) : Decidable d.Scalable := inferInstanceAs (Decidable (_ ∧ _ ∧ _ ∧ _))

/-- The sides after scaling. -/
def scaled (d : Decode) : Dims := if d.scaling.isSome ∧ d.Scalable then d.out else d.decode

/-- The bytes of a sample in memory. -/
def storage (d : Decode) : ℕ := if d.bps ≤ 8 then 1 else 2

/-- The bytes of a buffer of the image. -/
def buffer (d : Decode) (w h : ℕ) : ℕ := w * h * (d.nc * d.storage)

/-- The scratch buffer of `ResampleSeparable`. -/
def scratch (d : Decode) : ScalingMethod → ℕ
  | .high => 4 * (d.decode.h * (d.out.w * d.nc))
  | .medium => 0
  | .low => 0

/-- The angle within one turn. -/
def turn (d : Decode) : ℚ := d.angle - 360 * ⌊d.angle / 360⌋

end Decode

/-- The sides after `rotate` by `a` degrees. -/
noncomputable def rotated (w h : ℕ) (a : ℚ) : ℕ × ℕ :=
  let phi : ℝ := Real.pi * a / 180
  if a = 0 then (w, h)
  else if a = 90 then (h, w)
  else if a = 180 then (w, h)
  else if a = 270 then (h, w)
  else if 0 < a ∧ a < 90 then
    (⌊w * Real.cos phi + h * Real.sin phi + 1 / 2⌋₊, ⌊w * Real.sin phi + h * Real.cos phi + 1 / 2⌋₊)
  else if 90 < a ∧ a < 180 then
    (⌊-w * Real.cos phi + h * Real.sin phi + 1 / 2⌋₊, ⌊w * Real.sin phi - h * Real.cos phi + 1 / 2⌋₊)
  else if 180 < a ∧ a < 270 then
    (⌊-w * Real.cos phi - h * Real.sin phi + 1 / 2⌋₊, ⌊-w * Real.sin phi - h * Real.cos phi + 1 / 2⌋₊)
  else
    (⌊w * Real.cos phi - h * Real.sin phi + 1 / 2⌋₊, ⌊-w * Real.sin phi + h * Real.cos phi + 1 / 2⌋₊)

variable {d : Decode} {bytes : ℕ}

namespace Decode

/-- The sides after the rotation. -/
noncomputable def turned (d : Decode) : ℕ × ℕ := rotated d.scaled.w d.scaled.h d.turn

/-- Three channels for sRGB, one for grey. -/
def iccChannels (d : Decode) : Option ℕ :=
  match d.quality with
  | .color => some 3
  | .gray => some 1
  | .bitonal => if d.gray then none else some 1
  | .default => none

/-- `needs_icc`. -/
def needsIcc (d : Decode) : Bool := d.quality = .color ∨ d.quality = .gray

/-- The bytes in memory while the image is scaled. -/
def scaleBytes (d : Decode) : Option ℕ :=
  if d.Scalable then
    d.scaling.map fun m => d.buffer d.decode.w d.decode.h + d.buffer d.out.w d.out.h + d.scratch m
  else none

/-- The bytes in memory while the image is mirrored. -/
def mirrorBytes (d : Decode) : Option ℕ :=
  if d.mirror then some (d.buffer d.scaled.w d.scaled.h + d.buffer d.scaled.w d.scaled.h) else none

/-- The bytes in memory while the image is rotated. -/
noncomputable def rotateBytes (d : Decode) : Option ℕ :=
  if d.turn = 0 then none else some (d.buffer d.scaled.w d.scaled.h + d.buffer d.turned.1 d.turned.2)

/-- The bytes while colours are converted. -/
noncomputable def iccBytes (d : Decode) : Option ℕ :=
  d.iccChannels.map fun n => d.buffer d.turned.1 d.turned.2 + d.turned.1 * d.turned.2 * n

/-- The bytes in memory at every step that is taken. -/
noncomputable def transitions (d : Decode) : List ℕ :=
  [d.scaleBytes, d.mirrorBytes, d.rotateBytes, d.iccBytes].reduceOption

/-- The estimate that `build_image_response` makes. -/
def estimated (d : Decode) : ℕ := estimatePeakMemory d.decode d.out d.nc d.bps d.angle d.needsIcc

/-- The estimate accounts for every step. -/
def Covered (d : Decode) : Prop := ∀ bytes ∈ d.transitions, bytes ≤ d.estimated

theorem mem_transitions :
    bytes ∈ d.transitions ↔ d.scaleBytes = some bytes ∨ d.mirrorBytes = some bytes ∨ d.rotateBytes = some bytes ∨
      d.iccBytes = some bytes := by
  simp [transitions, List.reduceOption_mem_iff, eq_comm]

end Decode

/-! ### A turned rectangle -/

theorem le_ceilSqrt_sq (n : ℕ) : n ≤ ceilSqrt n * ceilSqrt n := by
  unfold ceilSqrt
  split_ifs with h
  · exact h.ge
  · exact (Nat.lt_succ_sqrt n).le

theorem round_le_ceilSqrt {x : ℝ} {n : ℕ} (h : x ^ 2 ≤ n) : ⌊x + 1 / 2⌋₊ ≤ ceilSqrt n := by
  have hsq : (n : ℝ) ≤ (ceilSqrt n : ℝ) ^ 2 := by
    have := le_ceilSqrt_sq n
    rw [sq]
    exact_mod_cast this
  have hx : x ≤ ceilSqrt n := le_of_sq_le_sq (h.trans hsq) (Nat.cast_nonneg _)
  refine Nat.lt_succ_iff.1 ((Nat.floor_lt' (Nat.succ_ne_zero _)).2 ?_)
  push_cast
  linarith

theorem side_le {p q c s : ℝ} (hcs : c ^ 2 + s ^ 2 = 1) {w h : ℕ} (hp : p ^ 2 + q ^ 2 = (w * w + h * h : ℕ)) :
    ⌊p * c + q * s + 1 / 2⌋₊ ≤ ceilSqrt (w * w + h * h) := by
  refine round_le_ceilSqrt ?_
  rw [← hp]
  -- the square of an inner product is at most the product of the squares
  have hc : (p * c + q * s) ^ 2 + (p * s - q * c) ^ 2 = p ^ 2 + q ^ 2 := by
    linear_combination (p ^ 2 + q ^ 2) * hcs
  linarith [sq_nonneg (p * s - q * c)]

theorem le_ceilSqrt_left (w h : ℕ) : w ≤ ceilSqrt (w * w + h * h) :=
  Nat.mul_self_le_mul_self_iff.1 ((Nat.le_add_right _ _).trans (le_ceilSqrt_sq _))

theorem le_ceilSqrt_right (w h : ℕ) : h ≤ ceilSqrt (w * w + h * h) :=
  Nat.mul_self_le_mul_self_iff.1 ((Nat.le_add_left _ _).trans (le_ceilSqrt_sq _))

theorem rotated_le (w h : ℕ) (a : ℚ) :
    (rotated w h a).1 ≤ ceilSqrt (w * w + h * h) ∧ (rotated w h a).2 ≤ ceilSqrt (w * w + h * h) := by
  have hcs := Real.cos_sq_add_sin_sq (Real.pi * a / 180)
  have hsc := Real.sin_sq_add_cos_sq (Real.pi * a / 180)
  unfold rotated
  split_ifs
  · exact ⟨le_ceilSqrt_left w h, le_ceilSqrt_right w h⟩
  · exact ⟨le_ceilSqrt_right w h, le_ceilSqrt_left w h⟩
  · exact ⟨le_ceilSqrt_left w h, le_ceilSqrt_right w h⟩
  · exact ⟨le_ceilSqrt_right w h, le_ceilSqrt_left w h⟩
  · exact ⟨side_le hcs (by push_cast; ring), side_le hsc (by push_cast; ring)⟩
  · have h2 := side_le (w := w) (h := h) (p := w) (q := -h) hsc (by push_cast; ring)
    exact ⟨side_le hcs (by push_cast; ring), by simpa [sub_eq_add_neg] using h2⟩
  · have h1 := side_le (w := w) (h := h) (p := -w) (q := -h) hcs (by push_cast; ring)
    have h2 := side_le (w := w) (h := h) (p := -w) (q := -h) hsc (by push_cast; ring)
    exact ⟨by simpa [sub_eq_add_neg] using h1, by simpa [sub_eq_add_neg] using h2⟩
  · have h1 := side_le (w := w) (h := h) (p := w) (q := -h) hcs (by push_cast; ring)
    exact ⟨by simpa [sub_eq_add_neg] using h1, side_le hsc (by push_cast; ring)⟩

/-- The quarter turns. -/
def Quarter (rot : ℤ) : Prop := rot = 0 ∨ rot = 90 ∨ rot = 180 ∨ rot = 270

theorem rotSides_of_not_quarter (w h : ℕ) {rot : ℤ} (hr : ¬ Quarter rot) :
    rotSides w h rot = (ceilSqrt (w * w + h * h), ceilSqrt (w * w + h * h)) := by
  simp only [Quarter, not_or] at hr
  simp [rotSides, hr]

theorem area_le_rotSides (w h : ℕ) (rot : ℤ) : w * h ≤ (rotSides w h rot).1 * (rotSides w h rot).2 := by
  unfold rotSides
  split_ifs
  · exact (mul_comm w h).le
  · exact Nat.mul_le_mul (le_ceilSqrt_left w h) (le_ceilSqrt_right w h)
  · exact le_rfl

theorem rotated_area_le (w h : ℕ) {a : ℚ} {rot : ℤ} (hr : (rot : ℚ) = a ∨ ¬ Quarter rot) :
    (rotated w h a).1 * (rotated w h a).2 ≤ (rotSides w h rot).1 * (rotSides w h rot).2 := by
  by_cases hq : Quarter rot
  · obtain rfl := hr.resolve_right (not_not_intro hq)
    rcases hq with rfl | rfl | rfl | rfl <;> simp [rotated, rotSides]
  · rw [rotSides_of_not_quarter w h hq]
    exact Nat.mul_le_mul (rotated_le w h a).1 (rotated_le w h a).2

/-! ### The estimate without overflow -/

theorem safeBuf_eq {w h bpp : ℕ} (hb : 0 < bpp) (hf : w * h * bpp ≤ sizeMax) : safeBuf w h bpp = w * h * bpp := by
  have ha : w * h ≤ sizeMax := (Nat.le_mul_of_pos_right _ hb).trans hf
  unfold safeBuf
  split_ifs with h0 hw hp
  · rcases h0 with rfl | rfl <;> simp
  · rw [not_or] at h0
    exact absurd ((Nat.div_lt_iff_lt_mul (Nat.pos_of_ne_zero h0.2)).1 hw) ha.not_gt
  · exact absurd ((Nat.div_lt_iff_lt_mul hb).1 hp) hf.not_gt
  · rfl

theorem sizeAdd_eq {a b : ℕ} (h : a + b ≤ sizeMax) : sizeAdd a b = a + b :=
  Nat.mod_eq_of_lt (Nat.lt_succ_of_le h)

namespace Decode

/-- The bytes of a pixel, as estimated. -/
def perPixel (d : Decode) : ℕ := d.nc * bytesPerSample d.bps

/-- The pixels that are read. -/
def decodeArea (d : Decode) : ℕ := d.decode.w * d.decode.h

/-- The pixels that are asked for. -/
def outArea (d : Decode) : ℕ := d.out.w * d.out.h

/-- The pixels after the rotation, as estimated. -/
def rotArea (d : Decode) : ℕ :=
  (rotSides d.out.w d.out.h (rotInt d.angle)).1 * (rotSides d.out.w d.out.h (rotInt d.angle)).2

/-- No sum that the estimate forms overflows. -/
structure Fits (d : Decode) : Prop where
  decode : d.decodeArea * d.perPixel ≤ sizeMax
  scale : d.out ≠ d.decode →
    d.decodeArea * d.perPixel + d.outArea * d.perPixel + d.outArea * d.perPixel / 2 ≤ sizeMax
  rotate : rotInt d.angle ≠ 0 → d.outArea * d.perPixel + d.rotArea * d.perPixel ≤ sizeMax
  icc : d.needsIcc = true → d.rotArea * d.perPixel + d.rotArea * d.perPixel ≤ sizeMax

variable {d : Decode}

theorem perPixel_pos (d : Decode) : 0 < d.perPixel :=
  Nat.mul_pos d.nc_pos (lt_of_lt_of_le Nat.one_pos (le_max_right _ _))

theorem rotArea_of_zero (h : rotInt d.angle = 0) : d.rotArea = d.outArea := by
  simp [rotArea, outArea, rotSides, h]

theorem ne_iff_sides : d.out ≠ d.decode ↔ d.out.w ≠ d.decode.w ∨ d.out.h ≠ d.decode.h := by
  rw [Ne, Dims.ext_iff, not_and_or]

theorem outArea_of_eq (h : d.out = d.decode) : d.outArea = d.decodeArea := by
  rw [outArea, decodeArea, h]

theorem safeBufs_eq (hf : d.Fits) :
    safeBuf d.decode.w d.decode.h d.perPixel = d.decodeArea * d.perPixel ∧
    safeBuf d.out.w d.out.h d.perPixel = d.outArea * d.perPixel ∧
    (rotInt d.angle ≠ 0 ∨ d.needsIcc = true →
      safeBuf (rotSides d.out.w d.out.h (rotInt d.angle)).1 (rotSides d.out.w d.out.h (rotInt d.angle)).2 d.perPixel =
        d.rotArea * d.perPixel) := by
  have ho : d.outArea * d.perPixel ≤ sizeMax := by
    by_cases h : d.out = d.decode
    · rw [outArea_of_eq h]
      exact hf.decode
    · have := hf.scale h
      omega
  refine ⟨safeBuf_eq d.perPixel_pos hf.decode, safeBuf_eq d.perPixel_pos ho, fun h => safeBuf_eq d.perPixel_pos ?_⟩
  rcases h with h | h
  · exact (Nat.le_add_left _ _).trans (hf.rotate h)
  · exact (Nat.le_add_left _ _).trans (hf.icc h)

theorem estimated_eq (hf : d.Fits) :
    d.estimated = max (max (max (d.decodeArea * d.perPixel)
      (if d.out ≠ d.decode then
        d.decodeArea * d.perPixel + d.outArea * d.perPixel + d.outArea * d.perPixel / 2 else 0))
      (if rotInt d.angle ≠ 0 then d.outArea * d.perPixel + d.rotArea * d.perPixel else 0))
      (if d.needsIcc then d.rotArea * d.perPixel + d.rotArea * d.perPixel else 0) := by
  obtain ⟨hd, ho, hr⟩ := safeBufs_eq hf
  -- the image that is rotated is the scaled one, also when it was not scaled
  have hi : (if d.out.w ≠ d.decode.w ∨ d.out.h ≠ d.decode.h then d.outArea * d.perPixel
      else d.decodeArea * d.perPixel) = d.outArea * d.perPixel := by
    split_ifs with h
    · rfl
    · rw [← ne_iff_sides, not_not] at h
      rw [outArea_of_eq h]
  simp only [estimated, estimatePeakMemory, d.nc_pos, if_true, ← perPixel.eq_1, hd, ho, hi]
  congr 1
  · congr 1
    · congr 1
      refine ite_congr (propext ne_iff_sides.symm) (fun h => ?_) fun _ => rfl
      have hs := hf.scale h
      rw [sizeAdd_eq (a := d.decodeArea * d.perPixel) (by omega), sizeAdd_eq hs]
    · refine ite_congr rfl (fun h => ?_) fun _ => rfl
      rw [hr (.inl h), sizeAdd_eq (hf.rotate h)]
  · refine ite_congr rfl (fun h => ?_) fun _ => rfl
    have hic : (if rotInt d.angle ≠ 0 then d.rotArea * d.perPixel else d.outArea * d.perPixel) =
        d.rotArea * d.perPixel := by
      split_ifs with hz
      · rfl
      · rw [rotArea_of_zero (not_not.1 hz)]
    rw [hr (.inr h), hic, if_pos h, sizeAdd_eq (hf.icc h)]

/-! ### What the estimate accounts for -/

/-- What is set aside is enough. -/
def Spare (d : Decode) (bytes : ℕ) : Prop :=
  (rotInt d.angle ≠ 0 ∧ bytes ≤ (d.outArea + d.rotArea) * d.perPixel) ∨
    (d.needsIcc = true ∧ bytes ≤ 2 * d.rotArea * d.perPixel)

/-- A sum of the estimate is enough. -/
def Room (d : Decode) (bytes : ℕ) : Prop :=
  bytes ≤ d.decodeArea * d.perPixel ∨
    (d.out ≠ d.decode ∧ 2 * bytes ≤ (2 * d.decodeArea + 3 * d.outArea) * d.perPixel) ∨ d.Spare bytes

/-- The pixels after scaling. -/
def scaledArea (d : Decode) : ℕ := d.scaled.w * d.scaled.h

/-- The pixels after the rotation. -/
noncomputable def turnedArea (d : Decode) : ℕ := d.turned.1 * d.turned.2

/-- The bytes of a pixel in memory. -/
def inMemory (d : Decode) : ℕ := d.nc * d.storage

/-- The image has the sides that were asked for, its samples do not have nine to fifteen bits, and the angle is whole
or past no quarter turn. -/
def Usual (d : Decode) : Prop :=
  d.scaled = d.out ∧ (d.bps ≤ 8 ∨ d.bps = 16) ∧ (d.angle.den = 1 ∨ ¬ Quarter (rotInt d.angle))

/-- What each step that is taken needs. -/
structure Counted (d : Decode) : Prop where
  /-- An image is scaled to other sides, its samples do not have nine to fifteen bits, and half of the new image is
  enough for the scratch buffer of `scale`; or another sum is enough. -/
  scaled : ∀ m ∈ d.scaling, d.Scalable →
    (d.out ≠ d.decode ∧ (d.bps ≤ 8 ∨ d.bps = 16) ∧ (m = .high → 8 * d.decode.h ≤ d.storage * d.out.h)) ∨
      d.Spare ((d.decodeArea + d.outArea) * d.inMemory + d.scratch m)
  /-- Mirroring has no sum of its own. -/
  mirrored : d.mirror = true →
    (d.out ≠ d.decode ∧ 4 * d.scaledArea * d.inMemory ≤ (2 * d.decodeArea + 3 * d.outArea) * d.perPixel) ∨
      d.Spare (2 * d.scaledArea * d.inMemory)
  /-- The sum for the rotation takes the angle for whole, and the image for scaled. -/
  turned : d.turn ≠ 0 → ¬ d.Usual → d.Room ((d.scaledArea + d.turnedArea) * d.inMemory)
  /-- The sum for the conversion takes the new channels for no more than a pixel has bytes, and bitonal images are
  left out of it. -/
  converted : ∀ n ∈ d.iccChannels, ¬ (d.Usual ∧ d.needsIcc = true ∧ n ≤ d.perPixel) →
    d.Room (d.turnedArea * (d.inMemory + n))

theorem le_estimated_iff (hf : d.Fits) : bytes ≤ d.estimated ↔ d.Room bytes := by
  have hs : bytes ≤ d.decodeArea * d.perPixel + d.outArea * d.perPixel + d.outArea * d.perPixel / 2 ↔
      2 * bytes ≤ (2 * d.decodeArea + 3 * d.outArea) * d.perPixel := by
    rw [add_mul, mul_assoc, mul_assoc]
    omega
  have hr : bytes ≤ d.outArea * d.perPixel + d.rotArea * d.perPixel ↔
      bytes ≤ (d.outArea + d.rotArea) * d.perPixel := by rw [add_mul]
  have hi : bytes ≤ d.rotArea * d.perPixel + d.rotArea * d.perPixel ↔ bytes ≤ 2 * d.rotArea * d.perPixel := by
    rw [mul_assoc, two_mul]
  -- a sum that is not formed is enough for nothing
  have hite : ∀ (c : Prop) [Decidable c] (x : ℕ), bytes ≤ (if c then x else 0) ↔ (c ∧ bytes ≤ x) ∨ bytes = 0 := by
    intro c _ x
    split_ifs with hc <;> simp [hc]
    rintro rfl
    exact Nat.zero_le x
  rw [estimated_eq hf]
  simp only [le_max_iff, hite, hs, hr, hi, Room, Spare]
  constructor
  · rintro (((h | h | rfl) | h | rfl) | h | rfl)
    · exact .inl h
    · exact .inr (.inl h)
    · exact .inl (Nat.zero_le _)
    · exact .inr (.inr (.inl h))
    · exact .inl (Nat.zero_le _)
    · exact .inr (.inr (.inr h))
    · exact .inl (Nat.zero_le _)
  · rintro (h | h | h | h)
    · exact .inl (.inl (.inl h))
    · exact .inl (.inl (.inr (.inl h)))
    · exact .inl (.inr (.inl h))
    · exact .inr (.inl h)

theorem storage_eq (h : d.bps ≤ 8 ∨ d.bps = 16) : d.storage = bytesPerSample d.bps := by
  have := d.bps_bounds
  unfold storage bytesPerSample
  split_ifs <;> omega

theorem inMemory_eq (h : d.bps ≤ 8 ∨ d.bps = 16) : d.inMemory = d.perPixel := by
  rw [inMemory, storage_eq h, perPixel]

theorem inMemory_of_between (h : ¬ (d.bps ≤ 8 ∨ d.bps = 16)) : d.inMemory = 2 * d.perPixel := by
  have := d.bps_bounds
  have hs : d.storage = 2 * bytesPerSample d.bps := by
    unfold storage bytesPerSample
    split_ifs <;> omega
  rw [inMemory, hs, perPixel]
  ring

theorem perPixel_le_inMemory (d : Decode) : d.perPixel ≤ d.inMemory := by
  by_cases h : d.bps ≤ 8 ∨ d.bps = 16
  · exact (inMemory_eq h).ge
  · rw [inMemory_of_between h]
    omega

theorem decodeArea_pos (d : Decode) : 0 < d.decodeArea := Nat.mul_pos d.decode.w_pos d.decode.h_pos

theorem outArea_pos (d : Decode) : 0 < d.outArea := Nat.mul_pos d.out.w_pos d.out.h_pos

/-! ### The clauses, step by step -/

theorem scratch_le_iff (h : d.bps ≤ 8 ∨ d.bps = 16) (m : ScalingMethod) :
    2 * d.scratch m ≤ d.outArea * d.perPixel ↔ (m = .high → 8 * d.decode.h ≤ d.storage * d.out.h) := by
  cases m with
  | medium | low => simp [scratch]
  | high =>
    have hp : 0 < d.out.w * d.nc := Nat.mul_pos d.out.w_pos d.nc_pos
    have hl : 2 * d.scratch .high = 8 * d.decode.h * (d.out.w * d.nc) := by
      show 2 * (4 * (d.decode.h * (d.out.w * d.nc))) = _
      ring
    have hr : d.outArea * d.perPixel = d.storage * d.out.h * (d.out.w * d.nc) := by
      rw [outArea, perPixel, storage_eq h]
      ring
    rw [hl, hr, Nat.mul_le_mul_right_iff hp]
    simp

theorem scale_room_iff (m : ScalingMethod) :
    d.Room ((d.decodeArea + d.outArea) * d.inMemory + d.scratch m) ↔
      (d.out ≠ d.decode ∧ (d.bps ≤ 8 ∨ d.bps = 16) ∧ (m = .high → 8 * d.decode.h ≤ d.storage * d.out.h)) ∨
        d.Spare ((d.decodeArea + d.outArea) * d.inMemory + d.scratch m) := by
  have hp := d.perPixel_pos
  have hle := Nat.mul_le_mul_left (d.decodeArea + d.outArea) d.perPixel_le_inMemory
  have ho : 0 < d.outArea * d.perPixel := Nat.mul_pos d.outArea_pos hp
  have hd : 0 < d.decodeArea * d.perPixel := Nat.mul_pos d.decodeArea_pos hp
  rw [add_mul] at hle
  have hn : ¬ (d.decodeArea + d.outArea) * d.inMemory + d.scratch m ≤ d.decodeArea * d.perPixel := by omega
  have ht : (2 * d.decodeArea + 3 * d.outArea) * d.perPixel =
      2 * (d.decodeArea * d.perPixel) + 3 * (d.outArea * d.perPixel) := by ring
  unfold Room
  rw [or_iff_right hn]
  refine or_congr (and_congr_right fun _ => ?_) Iff.rfl
  rw [ht]
  by_cases hb : d.bps ≤ 8 ∨ d.bps = 16
  · rw [and_iff_right hb, ← scratch_le_iff hb, inMemory_eq hb, add_mul]
    omega
  · rw [inMemory_of_between hb]
    refine iff_of_false ?_ fun h => hb h.1
    have : (d.decodeArea + d.outArea) * (2 * d.perPixel) =
        2 * (d.decodeArea * d.perPixel) + 2 * (d.outArea * d.perPixel) := by ring
    omega

theorem scaledArea_of_eq (h : d.out = d.decode) : d.scaledArea = d.decodeArea := by
  unfold scaledArea scaled decodeArea
  split_ifs
  · rw [h]
  · rfl

theorem mirror_room_iff :
    d.Room (2 * d.scaledArea * d.inMemory) ↔
      (d.out ≠ d.decode ∧ 4 * d.scaledArea * d.inMemory ≤ (2 * d.decodeArea + 3 * d.outArea) * d.perPixel) ∨
        d.Spare (2 * d.scaledArea * d.inMemory) := by
  have hfour : 2 * (2 * d.scaledArea * d.inMemory) = 4 * d.scaledArea * d.inMemory := by ring
  have ht : (2 * d.decodeArea + 3 * d.outArea) * d.perPixel =
      2 * (d.decodeArea * d.perPixel) + 3 * (d.outArea * d.perPixel) := by ring
  unfold Room
  rw [hfour]
  refine ⟨fun h => ?_, .inr⟩
  rcases h with h | h
  · -- two copies are as much as the image that was read only if they are of a smaller one
    left
    refine ⟨fun he => ?_, by omega⟩
    have hd : 0 < d.decodeArea * d.perPixel := Nat.mul_pos d.decodeArea_pos d.perPixel_pos
    have hle := Nat.mul_le_mul_left d.decodeArea d.perPixel_le_inMemory
    rw [scaledArea_of_eq he, mul_assoc] at h
    omega
  · exact h

theorem scaleBytes_eq_some :
    d.scaleBytes = some bytes ↔ ∃ m ∈ d.scaling, d.Scalable ∧
      (d.decodeArea + d.outArea) * d.inMemory + d.scratch m = bytes := by
  unfold scaleBytes
  split_ifs with h
  · simp [h, Option.map_eq_some_iff, buffer, decodeArea, outArea, inMemory, add_mul]
  · simp [h]

theorem mirrorBytes_eq_some :
    d.mirrorBytes = some bytes ↔ d.mirror = true ∧ 2 * d.scaledArea * d.inMemory = bytes := by
  have h : 2 * d.scaledArea * d.inMemory = d.buffer d.scaled.w d.scaled.h + d.buffer d.scaled.w d.scaled.h := by
    rw [mul_assoc, two_mul]
    rfl
  rw [h]
  unfold mirrorBytes
  split_ifs with hm <;> simp [hm]

theorem rotateBytes_eq_some :
    d.rotateBytes = some bytes ↔ d.turn ≠ 0 ∧ (d.scaledArea + d.turnedArea) * d.inMemory = bytes := by
  have h : (d.scaledArea + d.turnedArea) * d.inMemory =
      d.buffer d.scaled.w d.scaled.h + d.buffer d.turned.1 d.turned.2 := add_mul _ _ _
  rw [h]
  unfold rotateBytes
  split_ifs with ht <;> simp [ht]

theorem iccBytes_eq_some :
    d.iccBytes = some bytes ↔ ∃ n ∈ d.iccChannels, d.turnedArea * (d.inMemory + n) = bytes := by
  unfold iccBytes
  simp [Option.map_eq_some_iff, buffer, turnedArea, inMemory, mul_add]

theorem rotInt_eq_turn (hd : d.angle.den = 1) : (rotInt d.angle : ℚ) = d.turn ∨ ¬ Quarter (rotInt d.angle) := by
  obtain ⟨n, hn⟩ : ∃ n : ℕ, d.angle = n := by
    refine ⟨d.angle.num.toNat, ?_⟩
    have hnm : ((d.angle.num.toNat : ℕ) : ℤ) = d.angle.num := Int.toNat_of_nonneg (Rat.num_nonneg.2 d.angle_nonneg)
    calc d.angle = (d.angle.num : ℚ) := (Rat.coe_int_num_of_den_eq_one hd).symm
      _ = ((d.angle.num.toNat : ℤ) : ℚ) := by rw [hnm]
      _ = _ := Int.cast_natCast _
  by_cases hlt : n < 2 ^ 31
  · left
    have hc : ((n : ℕ) : ℚ) < 2 ^ 31 := by exact_mod_cast hlt
    have hdv : ⌊(n : ℚ) / 360⌋ = (n : ℤ) / 360 := by
      rw [show (n : ℚ) / 360 = ((n : ℤ) : ℚ) / ((360 : ℕ) : ℚ) by norm_num, Rat.floor_intCast_div_natCast]
      norm_num
    have hm : (n : ℤ).tmod 360 = n - 360 * ((n : ℤ) / 360) := by
      rw [Int.tmod_eq_emod_of_nonneg (by positivity)]
      omega
    have hnn : ¬ (n : ℤ) - 360 * ((n : ℤ) / 360) < 0 := by omega
    simp only [turn, rotInt, hn, hc, if_true, Int.floor_natCast, hm, if_neg hnn, hdv]
    push_cast
    ring
  · right
    have hc : ¬ ((n : ℕ) : ℚ) < 2 ^ 31 := by exact_mod_cast hlt
    simp only [rotInt, hn, hc, if_false, Quarter]
    decide

theorem rotInt_spec (ha : d.angle.den = 1 ∨ ¬ Quarter (rotInt d.angle)) :
    (rotInt d.angle : ℚ) = d.turn ∨ ¬ Quarter (rotInt d.angle) := ha.elim rotInt_eq_turn Or.inr

theorem turnedArea_le (hu : d.Usual) : d.turnedArea ≤ d.rotArea := by
  obtain ⟨hs, -, ha⟩ := hu
  rw [turnedArea, turned, hs]
  exact rotated_area_le _ _ (rotInt_spec ha)

theorem room_of_turned (hu : d.Usual) (ht : d.turn ≠ 0) : d.Room ((d.scaledArea + d.turnedArea) * d.inMemory) := by
  have hle := turnedArea_le hu
  obtain ⟨hs, hb, ha⟩ := hu
  have hr : rotInt d.angle ≠ 0 := by
    intro h0
    rcases rotInt_spec ha with heq | hq
    · exact ht (by rw [← heq, h0, Int.cast_zero])
    · exact hq (.inl h0)
  refine .inr (.inr (.inl ⟨hr, ?_⟩))
  rw [inMemory_eq hb, scaledArea, hs]
  exact Nat.mul_le_mul_right _ (Nat.add_le_add_left hle _)

theorem room_of_converted (hu : d.Usual) (hi : d.needsIcc = true) {n : ℕ} (hn : n ≤ d.perPixel) :
    d.Room (d.turnedArea * (d.inMemory + n)) := by
  refine .inr (.inr (.inr ⟨hi, ?_⟩))
  calc d.turnedArea * (d.inMemory + n) ≤ d.rotArea * (d.perPixel + d.perPixel) := by
        rw [inMemory_eq hu.2.1]
        exact Nat.mul_le_mul (turnedArea_le hu) (Nat.add_le_add_left hn _)
    _ = 2 * d.rotArea * d.perPixel := by ring

end Decode

open Decode

theorem Decode.counted_iff (d : Decode) : d.Counted ↔ ∀ bytes ∈ d.transitions, d.Room bytes := by
  constructor
  · intro h bytes hb
    rcases mem_transitions.1 hb with hb | hb | hb | hb
    · obtain ⟨m, hm, hs, rfl⟩ := scaleBytes_eq_some.mp hb
      exact (scale_room_iff m).mpr (h.scaled m hm hs)
    · obtain ⟨hm, rfl⟩ := mirrorBytes_eq_some.mp hb
      exact mirror_room_iff.mpr (h.mirrored hm)
    · obtain ⟨ht, rfl⟩ := rotateBytes_eq_some.mp hb
      by_cases hu : d.Usual
      · exact room_of_turned hu ht
      · exact h.turned ht hu
    · obtain ⟨n, hn, rfl⟩ := iccBytes_eq_some.mp hb
      by_cases hu : d.Usual ∧ d.needsIcc = true ∧ n ≤ d.perPixel
      · exact room_of_converted hu.1 hu.2.1 hu.2.2
      · exact h.converted n hn hu
  · intro h
    refine ⟨fun m hm hs => (scale_room_iff m).mp (h _ (mem_transitions.2 (.inl ?_))),
      fun hm => mirror_room_iff.mp (h _ (mem_transitions.2 (.inr (.inl ?_)))),
      fun ht _ => h _ (mem_transitions.2 (.inr (.inr (.inl ?_)))),
      fun n hn _ => h _ (mem_transitions.2 (.inr (.inr (.inr ?_))))⟩
    · exact scaleBytes_eq_some.mpr ⟨m, hm, hs, rfl⟩
    · exact mirrorBytes_eq_some.mpr ⟨hm, rfl⟩
    · exact rotateBytes_eq_some.mpr ⟨ht, rfl⟩
    · exact iccBytes_eq_some.mpr ⟨n, hn, rfl⟩

/-- **When the estimate covers the pipeline**: each step that is taken has its clause. -/
theorem estimate_covers_iff (d : Decode) (hfits : d.Fits) : d.Covered ↔ d.Counted := by
  unfold Covered
  simp only [le_estimated_iff hfits]
  exact d.counted_iff.symm

namespace Decode

theorem mirror_exceeds (hf : d.Fits) (hm : d.mirror = true) (he : d.out = d.decode) (hr : rotInt d.angle = 0)
    (hi : d.needsIcc = false) : ¬ d.Covered := by
  intro h
  have hroom := (le_estimated_iff hf).mp (h _ (mem_transitions.2 (.inr (.inl (mirrorBytes_eq_some.mpr ⟨hm, rfl⟩)))))
  rcases mirror_room_iff.mp hroom with ⟨hne, _⟩ | hs | hs
  · exact hne he
  · exact hs.1 hr
  · simp [hi] at hs

theorem high_scale_covered_iff (hf : d.Fits) (hb : d.bps ≤ 8 ∨ d.bps = 16) (hs : d.scaling = some .high)
    (hsc : d.Scalable) (hne : d.out ≠ d.decode) (hm : d.mirror = false) (ha : d.angle = 0)
    (hq : d.quality = .default) : d.Covered ↔ 8 * d.decode.h ≤ d.storage * d.out.h := by
  have hr : rotInt d.angle = 0 := by
    rw [ha]
    decide +kernel
  have ht : d.turn = 0 := by simp [turn, ha]
  have hi : d.needsIcc = false := by simp [needsIcc, hq]
  unfold Covered
  simp only [le_estimated_iff hf, ← d.counted_iff]
  constructor
  · intro h
    rcases h.scaled .high hs hsc with ⟨_, _, hle⟩ | hp | hp
    · exact hle rfl
    · exact absurd hr hp.1
    · simp [hi] at hp
  · intro hle
    exact ⟨fun m hmm _ => .inl ⟨hne, hb, fun _ => hle⟩, by simp [hm], fun h => absurd ht h,
      by simp [iccChannels, hq]⟩

end Decode

/-- A mirrored and turned colour image. -/
def turnedPhoto : Decode where
  decode := ⟨1200, 800, Nat.succ_pos 1199, Nat.succ_pos 799⟩
  out := ⟨1200, 800, Nat.succ_pos 1199, Nat.succ_pos 799⟩
  nc := 3
  nc_pos := Nat.succ_pos 2
  bps := 8
  bps_bounds := by decide
  angle := 90
  angle_nonneg := by decide
  mirror := true
  quality := .color
  gray := false
  scaling := none
  unscaled := fun _ => rfl

theorem turnedPhoto_covered : turnedPhoto.Fits ∧ turnedPhoto.Counted ∧ turnedPhoto.Covered := by
  have hr : rotInt turnedPhoto.angle = 90 := by decide +kernel
  have hf : turnedPhoto.Fits :=
    ⟨by decide +kernel, fun _ => by decide +kernel, fun _ => by decide +kernel, fun _ => by decide +kernel⟩
  have hs : turnedPhoto.Spare (1200 * 800 * 6) := .inl ⟨by rw [hr]; decide, by decide +kernel⟩
  have hu : turnedPhoto.Usual := ⟨rfl, .inl (by decide), .inl rfl⟩
  have hc : turnedPhoto.Counted :=
    { scaled := by simp [turnedPhoto]
      mirrored := fun _ => .inr hs
      turned := fun _ hn => absurd hu hn
      converted := fun n hn hnu => by
        obtain rfl : 3 = n := by simpa [iccChannels, turnedPhoto] using hn
        exact absurd ⟨hu, rfl, by decide⟩ hnu }
  exact ⟨hf, hc, (estimate_covers_iff turnedPhoto hf).mpr hc⟩

def thumbnail : Decode where
  decode := ⟨1000, 1000, Nat.succ_pos 999, Nat.succ_pos 999⟩
  out := ⟨100, 100, Nat.succ_pos 99, Nat.succ_pos 99⟩
  nc := 3
  nc_pos := Nat.succ_pos 2
  bps := 8
  bps_bounds := by decide
  angle := 0
  angle_nonneg := le_rfl
  mirror := false
  quality := .default
  gray := false
  scaling := some .high
  unscaled := nofun

def mirroredPhoto : Decode :=
  { thumbnail with out := thumbnail.decode, scaling := none, unscaled := fun _ => rfl, mirror := true }

theorem thumbnail_exceeds_estimate :
    (4230000 ∈ thumbnail.transitions ∧ thumbnail.estimated = 3045000) ∧
      6000000 ∈ mirroredPhoto.transitions ∧ mirroredPhoto.estimated = 3000000 := by
  refine ⟨⟨mem_transitions.2 (.inl ?_), ?_⟩, mem_transitions.2 (.inr (.inl ?_)), ?_⟩ <;> decide +kernel

end Sipi.Throttling
