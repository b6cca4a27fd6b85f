import Sipi.Geometry.SingleSize
import Sipi.Iiif.Request
import Sipi.Throttling.Admission

/-!
# Tiles and fulls

`Admission::classify` of `src/throttling/rust/lib.rs` says from the parameters of a request whether it is a tile or
a full: it bounds the pixels of the output without knowing the image.

## Honest scope

The sides of the output are those of single precision. The sides of an image are 32-bit numbers.
-/

namespace Sipi.Throttling

open Sipi.Geometry Sipi.Iiif Sipi.Theory

/-- `BYTES_PER_PIXEL_PROXY`. -/
def bytesPerPixelProxy : ℕ := 4

/-- `u64::saturating_mul`. -/
def saturatingMul (a b : ℕ) : ℕ := min (a * b) (2 ^ 64 - 1)

/-- `output_pixel_upper_bound`. -/
def outputPixelUpperBound (s : SizeParts) : Option ℕ :=
  match s.kind with
  | .pixelsXy | .maxdim => some (saturatingMul s.nx s.ny)
  | .pixelsX => some (saturatingMul s.nx s.nx)
  | .pixelsY => some (saturatingMul s.ny s.ny)
  | .full | .percents | .reduce | .undefined => none

/-- `is_full_image`. -/
def isFullImage (threshold : UInt64) (p : IiifParams) : Bool :=
  match outputPixelUpperBound p.size with
  | some pixels => decide (threshold.toNat ≤ saturatingMul pixels bytesPerPixelProxy)
  | none => true

/-- `Admission::classify`. -/
def classify (threshold : UInt64) (parsed : ParsedRequest) : AdmissionKind :=
  match parsed.kind with
  | .iiif =>
    match parsed.params with
    | some p => if isFullImage threshold p then .full else .tile
    | none => .tile
  | .infoJson | .knoraJson | .fileDownload | .redirect => .tile

theorem saturatingMul_sides {a b : ℕ} (ha : a ≤ limitdim) (hb : b ≤ limitdim) :
    saturatingMul a b = a * b ∧ saturatingMul (a * b) bytesPerPixelProxy = a * b * 4 ∧ a * b * 4 < 2 ^ 64 - 1 := by
  have hab : a * b ≤ limitdim * limitdim := Nat.mul_le_mul ha hb
  have hl : limitdim * limitdim * 4 < 2 ^ 64 - 1 := by decide
  have hs : a * b * 4 < 2 ^ 64 - 1 := lt_of_le_of_lt (Nat.mul_le_mul_right 4 hab) hl
  exact ⟨min_eq_left (by omega), min_eq_left hs.le, hs⟩

theorem forall_threshold_iff {out pixels : ℕ} (hs : pixels * 4 < 2 ^ 64 - 1) :
    (∀ threshold : UInt64, threshold.toNat ≤ out * bytesPerPixelProxy → threshold.toNat ≤ pixels * 4) ↔
      out ≤ pixels := by
  constructor
  · intro h
    by_contra hlt
    -- the least threshold above the bound
    have hn : (UInt64.ofNat (pixels * 4 + 1)).toNat = pixels * 4 + 1 :=
      UInt64.toNat_ofNat_of_lt' (by simp only [UInt64.size]; omega)
    have hle := h (UInt64.ofNat (pixels * 4 + 1)) (by rw [hn, bytesPerPixelProxy]; omega)
    omega
  · intro hle threshold ht
    rw [bytesPerPixelProxy] at ht
    omega

/-- A request for an image. -/
def imageRequest (iiifPrefix identifier : Str) (p : IiifParams) : ParsedRequest :=
  ⟨.iiif, iiifPrefix, identifier, some p⟩

theorem classify_imageRequest (threshold : UInt64) (iiifPrefix identifier : Str) (p : IiifParams) :
    classify threshold (imageRequest iiifPrefix identifier p) = .full ↔
      ∀ pixels ∈ outputPixelUpperBound p.size, threshold.toNat ≤ saturatingMul pixels bytesPerPixelProxy := by
  cases hb : outputPixelUpperBound p.size <;> simp [classify, imageRequest, isFullImage, hb]

/-! ### What the engine derives -/

/-- The derived side is within its bound. -/
def DerivedFits (fl : ℚ → ℚ) (cap : ℕ) (s : SizeParts) (d : Dims) : Prop :=
  match s.kind with
  | .pixelsX => Rounded.otherSide fl (Rounded.fit fl d.w s.nx cap) d.w s.nx d.h ≤ s.nx
  | .pixelsY => Rounded.otherSide fl (Rounded.fit fl d.h s.ny cap) d.h s.ny d.w ≤ s.ny
  | .maxdim => (Rounded.maxdimSides fl s d).1 ≤ s.nx ∧ (Rounded.maxdimSides fl s d).2 ≤ s.ny
  | _ => True

theorem derivedFits_iff {fl : ℚ → ℚ} {cap : ℕ} {s : SizeParts} {d : Dims} (hv : SizeParts.Valid s)
    (hle : s.nx ≤ limitdim ∧ s.ny ≤ limitdim) :
    DerivedFits fl cap s d ↔
      ∀ pixels ∈ outputPixelUpperBound s, (Rounded.sides fl cap s d).1 * (Rounded.sides fl cap s d).2 ≤ pixels := by
  unfold SizeParts.Valid at hv
  unfold DerivedFits outputPixelUpperBound Rounded.sides
  cases hk : s.kind <;> simp only [hk] at hv ⊢
  case full | percents => simp
  case pixelsXy => simp [(saturatingMul_sides hle.1 hle.2).1]
  case pixelsX =>
    simp only [Option.mem_def, Option.some.injEq, forall_eq', (saturatingMul_sides hle.1 hle.1).1]
    exact (Nat.mul_le_mul_left_iff hv).symm
  case pixelsY =>
    simp only [Option.mem_def, Option.some.injEq, forall_eq', (saturatingMul_sides hle.2 hle.2).1]
    exact (Nat.mul_le_mul_right_iff hv).symm
  case maxdim =>
    simp only [Option.mem_def, Option.some.injEq, forall_eq', (saturatingMul_sides hle.1 hle.2).1]
    unfold Rounded.maxdimSides
    dsimp only
    split
    · simp only [le_refl, true_and]
      exact (Nat.mul_le_mul_left_iff hv.1.1).symm
    · simp only [le_refl, and_true]
      exact (Nat.mul_le_mul_right_iff hv.1.2).symm

theorem outSides_eq_sides {full buffer : Dims} (hw : full.w < 2 ^ 32) (hh : full.h < 2 ^ 32) {clevels : ℤ}
    {region : Region} {s : SizeParts} (hv : SizeParts.Valid s) (hb : outputPixelUpperBound s ≠ none) {rect : Rect}
    {out : ℕ × ℕ} (hr : cropCoords region 1 full = .ok rect)
    (ho : Rounded.outSides single.round full clevels buffer region s = .ok out) :
    out = Rounded.sides single.round clevels.toNat s rect.dims := by
  have hkn : s.kind ∈ [SizeKind.pixelsXy, .pixelsX, .pixelsY, .maxdim] := by
    unfold outputPixelUpperBound at hb
    cases hk : s.kind <;> simp [hk] at hb ⊢
  obtain ⟨hw', hh'⟩ := crop_within hr
  have hw64 : rect.dims.w ≤ 2 ^ 64 := by omega
  have hh64 : rect.dims.h ≤ 2 ^ 64 := by omega
  obtain ⟨hpos₁, hpos₂⟩ := Rounded.sides_pos Rounded.keepsPowers_single hv hkn hw64 hh64 clevels.toNat
  obtain ⟨found, hf, ho⟩ := bind_eq_ok.mp ho
  obtain rfl := Except.ok.inj (hr.symm.trans (crop_of_cropFound hf))
  rw [dims_getD] at ho
  dsimp only at ho
  split at ho
  · next hfl => simp [hfl] at hkn
  · unfold Rounded.getSize at ho
    dsimp only at ho
    split at ho
    · next t ht =>
      split at ht
      · cases ht
      · cases ht
        rw [if_neg hpos₁.ne', if_neg hpos₂.ne'] at ho
        exact (Except.ok.inj ho).symm
    · cases ho

theorem outputPixelUpperBound_small {s : SizeParts} (hle : s.nx ≤ limitdim ∧ s.ny ≤ limitdim) {pixels : ℕ}
    (h : outputPixelUpperBound s = some pixels) :
    saturatingMul pixels bytesPerPixelProxy = pixels * 4 ∧ pixels * 4 < 2 ^ 64 - 1 := by
  unfold outputPixelUpperBound at h
  split at h
  all_goals cases h
  · rw [(saturatingMul_sides hle.1 hle.2).1]
    exact (saturatingMul_sides hle.1 hle.2).2
  · rw [(saturatingMul_sides hle.1 hle.2).1]
    exact (saturatingMul_sides hle.1 hle.2).2
  · rw [(saturatingMul_sides hle.1 hle.1).1]
    exact (saturatingMul_sides hle.1 hle.1).2
  · rw [(saturatingMul_sides hle.2 hle.2).1]
    exact (saturatingMul_sides hle.2 hle.2).2

/-- **The classifier errs only toward full** exactly when the side that the engine derives, in single precision and
on the crop, is at most the side that stands for it in the bound. -/
theorem classify_full_iff {s : Str} {p : IiifParams} (hsize : parseSize s = .ok p.size) {full buffer : Dims}
    (hw : full.w < 2 ^ 32) (hh : full.h < 2 ^ 32) {clevels : ℤ} {region : Region} {rect : Rect}
    (hrect : cropCoords region 1 full = .ok rect) {out : ℕ × ℕ}
    (hout : Rounded.outSides single.round full clevels buffer region p.size = .ok out) (iiifPrefix identifier : Str) :
    (∀ threshold : UInt64, threshold.toNat ≤ out.1 * out.2 * bytesPerPixelProxy →
      classify threshold (imageRequest iiifPrefix identifier p) = .full) ↔
    DerivedFits single.round clevels.toNat p.size rect.dims := by
  by_cases hk : p.size.kind = .reduce
  · -- `red:n` has no bound
    simp [classify_imageRequest, outputPixelUpperBound, DerivedFits, hk]
  have hle := parseSize_le hsize
  have hv := parseSize_valid hsize hk
  rw [derivedFits_iff hv hle]
  simp only [classify_imageRequest]
  cases hb : outputPixelUpperBound p.size with
  | none => simp
  | some pixels =>
    obtain ⟨hby, hs⟩ := outputPixelUpperBound_small hle hb
    rw [outSides_eq_sides hw hh hv (by simp [hb]) hrect hout]
    simp only [Option.mem_def, Option.some.injEq, forall_eq', hby]
    exact forall_threshold_iff hs

theorem zeros_nonneg : (0 : ℚ) ≤ 0 ∧ (0 : ℚ) ≤ 0 ∧ (0 : ℚ) ≤ 0 ∧ (0 : ℚ) ≤ 0 := by simp

def wholeRegion : Region := ⟨.full, 0, 0, 0, 0, zeros_nonneg⟩

def hundredColumns : IiifParams := ⟨.full, (0, 0, 0, 0), ⟨.pixelsX, false, 0, 0, 100, 0⟩, 0, false, .default, .jpg⟩

theorem halved_zero {n : ℕ} (hn : n < 2 ^ 24) : Rounded.halved single.round n 0 = n := by
  simp [Rounded.halved, Rounded.single_natCast hn]

theorem fit_self {n : ℕ} (hn : n < 2 ^ 24) (cap : ℕ) : Rounded.fit single.round n n cap = ⟨0, true⟩ := by
  have hl : Rounded.halvings single.round n n cap 0 = 0 := by
    cases cap <;> simp [Rounded.halvings, halved_zero hn]
  simp [Rounded.fit, hl, halved_zero hn]

theorem outSides_whole {w h : ℕ} (hw : 0 < w) (hh : 0 < h) (hw' : w < 2 ^ 24) (hh' : h < 2 ^ 24) (buffer : Dims)
    (upscaling : Bool) :
    Rounded.outSides single.round ⟨w, h, hw, hh⟩ 0 buffer wholeRegion ⟨.pixelsX, upscaling, 0, 0, w, 0⟩ =
      .ok (w, h) := by
  have hs : Rounded.sides single.round 0 ⟨.pixelsX, upscaling, 0, 0, w, 0⟩ ⟨w, h, hw, hh⟩ = (w, h) := by
    simp [Rounded.sides, fit_self hw', Rounded.otherSide, halved_zero hh']
  simp [Rounded.outSides, cropFound, wholeRegion, Rounded.getSize, hs, bind, Except.bind, pure, Except.pure, hw.ne',
    hh.ne']

theorem tall_image_is_a_tile :
    parseSize (txt "100,") = .ok hundredColumns.size ∧
    Rounded.outSides single.round ⟨100, 1000, by decide, by decide⟩ 0 ⟨1, 1, by decide, by decide⟩ wholeRegion
      hundredColumns.size = .ok (100, 1000) ∧
    (100000 : UInt64).toNat ≤ 100 * 1000 * bytesPerPixelProxy ∧
    classify 100000 (imageRequest (txt "unit") (txt "scroll.tif") hundredColumns) = .tile :=
  ⟨by decide +kernel, outSides_whole _ _ (by norm_num) (by norm_num) _ _, by decide, by decide +kernel⟩

theorem wide_image_is_a_full :
    Rounded.outSides single.round ⟨100, 50, by decide, by decide⟩ 0 ⟨1, 1, by decide, by decide⟩ wholeRegion
      hundredColumns.size = .ok (100, 50) ∧
    ∀ threshold : UInt64, threshold.toNat ≤ 100 * 50 * bytesPerPixelProxy →
      classify threshold (imageRequest (txt "unit") (txt "band.tif") hundredColumns) = .full := by
  have ho : Rounded.outSides single.round ⟨100, 50, by decide, by decide⟩ 0 ⟨1, 1, by decide, by decide⟩ wholeRegion
      hundredColumns.size = .ok (100, 50) := outSides_whole _ _ (by norm_num) (by norm_num) _ _
  refine ⟨ho, (classify_full_iff (s := txt "100,") (by decide +kernel) (by norm_num) (by norm_num)
    (crop_full rfl 1 _) ho _ _).mpr ?_⟩
  show Rounded.otherSide single.round (Rounded.fit single.round 100 100 0) 100 100 50 ≤ 100
  rw [fit_self (by norm_num), Rounded.otherSide, if_pos rfl, halved_zero (by norm_num)]
  norm_num

end Sipi.Throttling
