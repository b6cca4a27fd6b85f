import Sipi.Theory.Fallible
import Sipi.Image.Resample

/-!
# Three ways to scale an image

`scaleFast`, `scaleMedium` and `scale` of `src/SipiImage.cpp` begin with the same check: if one of the old or new
sides is at most 1 they say so in the log, leave the image as it is and return `false`.

## Honest scope

The numbers of the resampler and of `scaleMedium` are exact, and the product of an old and a new side of the
resampler is below `2^64`. An entry of a table of `scaleFast` is below `2^53`.
-/

namespace Sipi.Image

open Sipi.Theory

/-- `xlut` and `ylut` of `scaleFast`, in `size_t`. -/
def fastLut (n nn i : ℕ) : ℕ := (halfAway ((i * (n - 1) % 2 ^ 64 / (nn - 1) : ℕ) : ℚ)).toNat

theorem fastLut_eq (n nn i : ℕ) : fastLut n nn i = i * (n - 1) % 2 ^ 64 / (nn - 1) := by
  rw [fastLut, halfAway_natCast, Int.toNat_natCast]

/-- `SipiImage::scaleFast`. -/
def SipiImage.scaleFast (img : SipiImage) (nnx nny : ℕ) : Except ScaleError (Bool × SipiImage) :=
  scaleWith img nnx nny (fill .overrun 0 nnx nny img.nc fun x y k =>
    img.pixels.fetch .overrun (index img.nx img.nc (fastLut img.nx nnx x) (fastLut img.ny nny y) k))

/-! ### Between four pixels -/

/-- A `size_t` that is passed as an `int`. -/
def asInt (n : ℕ) : ℤ := if n % 2 ^ 32 < 2 ^ 31 then (n % 2 ^ 32 : ℕ) else (n % 2 ^ 32 : ℕ) - 2 ^ 32

/-- `POSITION(x, y, c, n)`. -/
def position (nx n x y c : ℤ) : Except ScaleError ℤ := do
  let row ← int32 (y * nx)
  let pixel ← int32 (row + x)
  let sample ← int32 (n * pixel)
  int32 (sample + c)

/-- `buf[p]`. -/
def readAt (buf : Buffer ℕ) (p : ℤ) : Except ScaleError ℕ :=
  if p < 0 then .error .overrun else buf.fetch .overrun p.toNat

/-- `(byte)lround(v)` or `(word)lround(v)`. -/
def lroundTo (bps : Depth) (v : ℚ) : ℕ := (halfAway v % (bps.fullScale + 1)).toNat

/-- The pixel before a position, not the last. -/
def clampPixel (n ix : ℤ) : ℤ :=
  let ix := if ix < 0 then 0 else ix
  if n - 1 ≤ ix then n - 2 else ix

/-- The four pixels, without small weights. -/
def interpolateTo (bps : Depth) (sample : ℤ → ℤ → Except ScaleError ℕ) (rx ry : ℚ) : Except ScaleError ℕ :=
  if rx < threshold ∧ ry < threshold then sample 0 0
  else if rx < threshold then do
    let a ← sample 0 0
    let b ← sample 0 1
    return lroundTo bps (a * (1 - rx - ry + rx * ry) + b * (ry - rx * ry))
  else if ry < threshold then do
    let a ← sample 0 0
    let b ← sample 1 0
    return lroundTo bps (a * (1 - rx - ry + rx * ry) + b * (rx - rx * ry))
  else do
    let a ← sample 0 0
    let b ← sample 1 0
    let c ← sample 0 1
    let d ← sample 1 1
    return lroundTo bps (a * (1 - rx - ry + rx * ry) + b * (rx - rx * ry) + c * (ry - rx * ry) + d * rx * ry)

/-- `SipiImage::bilinn`, for bytes and words. -/
def bilinnInt (bps : Depth) (buf : Buffer ℕ) (nx ny : ℤ) (x y : ℚ) (c n : ℤ) : Except ScaleError ℕ :=
  if nx < 2 ∨ ny < 2 then readAt buf c
  else do
    let ix ← int32 (trunc x)
    let iy ← int32 (trunc y)
    let ix := clampPixel nx ix
    let iy := clampPixel ny iy
    interpolateTo bps (fun dx dy => position nx n (ix + dx) (iy + dy) c >>= readAt buf) (clampUnit (x - ix))
      (clampUnit (y - iy))

/-- `xlut` and `ylut` of `scaleMedium`; the product is a `size_t`. -/
def mediumLut (n nn i : ℕ) : ℚ := ((i * (n - 1) % 2 ^ 64 : ℕ) : ℚ) / ((nn - 1 : ℕ) : ℚ)

/-- No product of a table wraps around. -/
def TableFits (n nn : ℕ) : Prop := (nn - 1) * (n - 1) < 2 ^ 64

instance (n nn : ℕ) : Decidable (TableFits n nn) := inferInstanceAs (Decidable (_ < _))

/-- `SipiImage::scaleMedium`. -/
def SipiImage.scaleMedium (img : SipiImage) (nnx nny : ℕ) : Except ScaleError (Bool × SipiImage) :=
  scaleWith img nnx nny (fill .overrun 0 nnx nny img.nc fun i j k =>
    bilinnInt img.bps img.pixels (asInt img.nx) (asInt img.ny) (mediumLut img.nx nnx i) (mediumLut img.ny nny j)
      (asInt k) (asInt img.nc))

/-- `ScalingMethod`. -/
inductive ScalingMethod where
  | high
  | medium
  | low
  deriving DecidableEq

variable {n : ℕ}

namespace SipiImage

variable {img : SipiImage} {nnx nny : ℕ}

/-- The ways to scale an image. -/
def scaleBy (img : SipiImage) (nnx nny : ℕ) : ScalingMethod → Except ScaleError (Bool × SipiImage)
  | .high => img.scale nnx nny
  | .medium => img.scaleMedium nnx nny
  | .low => img.scaleFast nnx nny

/-- **Scaling reaches its target.** -/
def Reaches (img : SipiImage) (nnx nny : ℕ) (scaled : Except ScaleError (Bool × SipiImage)) : Prop :=
  ∃ done out, scaled = .ok (done, out) ∧ out.nx = nnx ∧ out.ny = nny ∧ out.nc = img.nc ∧ out.Full

/-- `bilinn` can count the samples. -/
def Countable (img : SipiImage) : Prop :=
  if asInt img.nx < 2 ∨ asInt img.ny < 2 then img.nc ≤ 2 ^ 31 else img.nx * img.ny * img.nc ≤ 2 ^ 31

instance (img : SipiImage) : Decidable img.Countable :=
  inferInstanceAs (Decidable (if asInt img.nx < 2 ∨ asInt img.ny < 2 then img.nc ≤ 2 ^ 31
    else img.nx * img.ny * img.nc ≤ 2 ^ 31))

theorem reaches_of_degenerate (hf : img.Full) (hs : Degenerate img nnx nny) (pixels : Except ScaleError (Buffer ℕ)) :
    img.Reaches nnx nny (scaleWith img nnx nny pixels) ↔ img.nx = nnx ∧ img.ny = nny := by
  rw [scaleWith, if_pos hs]
  constructor
  · rintro ⟨done, out, ho, hnx, hny, -⟩
    obtain rfl : img = out := congrArg Prod.snd (Except.ok.inj ho)
    exact ⟨hnx, hny⟩
  · rintro ⟨hnx, hny⟩
    exact ⟨false, img, rfl, hnx, hny, rfl, hf⟩

theorem reaches_of_not_degenerate (hs : ¬ Degenerate img nnx nny) (pixels : Except ScaleError (Buffer ℕ)) :
    img.Reaches nnx nny (scaleWith img nnx nny pixels) ↔ ∃ out, pixels = .ok out ∧ out.size = nnx * nny * img.nc := by
  rw [scaleWith, if_neg hs]
  constructor
  · rintro ⟨done, out, ho, -, -, -, hf⟩
    obtain ⟨block, hb, heq⟩ := map_eq_ok.mp ho
    obtain rfl : img.withPixels nnx nny block = out := congrArg Prod.snd heq
    exact ⟨block, hb, hf⟩
  · rintro ⟨block, rfl, hsz⟩
    exact ⟨true, img.withPixels nnx nny block, rfl, rfl, rfl, rfl, hsz⟩

theorem two_le_of_not_degenerate (hs : ¬ Degenerate img nnx nny) : 2 ≤ nnx ∧ 2 ≤ nny ∧ 2 ≤ img.nx ∧ 2 ≤ img.ny := by
  rw [Degenerate] at hs
  omega

theorem fill_ok_iff {value : ℕ → ℕ → ℕ → Except ScaleError ℕ} :
    (∃ out, fill .overrun 0 nnx nny img.nc value = .ok out ∧ out.size = nnx * nny * img.nc) ↔
      ∀ i < nnx, ∀ j < nny, ∀ k < img.nc, ∃ a, value i j k = .ok a := by
  constructor
  · rintro ⟨out, ho, -⟩ i hi j hj k hk
    exact ⟨_, value_of_fill ho hi hj hk⟩
  · intro h
    have he : Ends (fill .overrun 0 nnx nny img.nc value)
        (Filled nnx nny img.nc (fun _ _ _ _ => True) (nnx * nny * img.nc)) fun _ => False := by
      refine fill_ends fun i hi j hj k hk => ?_
      obtain ⟨a, ha⟩ := h i hi j hj k hk
      rw [ha]
      exact trivial
    obtain ⟨out, ho, hf⟩ := he.exists_ok
    exact ⟨out, ho, hf.size⟩

theorem scale_reaches (hf : img.Full) (hsc : img.InScale) (hs : ¬ Degenerate img nnx nny) :
    img.Reaches nnx nny (img.scale nnx nny) := by
  obtain ⟨-, -, hnx, hny⟩ := two_le_of_not_degenerate hs
  obtain ⟨tmp, out, hr⟩ := exists_resampled hf hsc (by omega) (by omega) nnx nny
  exact (reaches_of_not_degenerate hs _).mpr ⟨out, hr.resampled, hr.size⟩

theorem fastLut_lt {nn i : ℕ} (hn : 2 ≤ n) (hnn : 2 ≤ nn) (hi : i < nn) : fastLut n nn i < n := by
  have hle : i * (n - 1) % 2 ^ 64 / (nn - 1) ≤ n - 1 := by
    refine Nat.div_le_of_le_mul ((Nat.mod_le _ _).trans ?_)
    exact Nat.mul_le_mul_right _ (by omega)
  rw [fastLut_eq]
  omega

theorem scaleFast_reaches (hf : img.Full) (hs : ¬ Degenerate img nnx nny) :
    img.Reaches nnx nny (img.scaleFast nnx nny) := by
  obtain ⟨hn, hnn, hnx, hny⟩ := two_le_of_not_degenerate hs
  refine (reaches_of_not_degenerate hs _).mpr (fill_ok_iff.mpr fun i hi j hj k hk => ?_)
  exact ⟨_, Buffer.fetch_of_lt _ (hf.sample_lt (fastLut_lt hnx hn hi) (fastLut_lt hny hnn hj) hk)⟩

end SipiImage

theorem int32_eq_ok_iff {v w : ℤ} : int32 v = .ok w ↔ InInt32 v ∧ v = w := by
  unfold int32
  split_ifs with h <;> simp [h]

theorem position_eq_ok_iff {nx n x y c p : ℤ} :
    position nx n x y c = .ok p ↔ InInt32 (y * nx) ∧ InInt32 (y * nx + x) ∧ InInt32 (n * (y * nx + x)) ∧
      InInt32 (n * (y * nx + x) + c) ∧ n * (y * nx + x) + c = p := by
  unfold position
  simp only [bind_eq_ok, int32_eq_ok_iff]
  constructor
  · rintro ⟨_, ⟨h1, rfl⟩, _, ⟨h2, rfl⟩, _, ⟨h3, rfl⟩, h4, h5⟩
    exact ⟨h1, h2, h3, h4, h5⟩
  · rintro ⟨h1, h2, h3, h4, h5⟩
    exact ⟨_, ⟨h1, rfl⟩, _, ⟨h2, rfl⟩, _, ⟨h3, rfl⟩, h4, h5⟩

theorem asInt_of_lt (hn : n < 2 ^ 31) : asInt n = n := by
  unfold asInt
  omega

variable {nx ny nc : ℕ}

theorem position_eq_index {x y c : ℕ} (hx : x < nx) (hy : y < ny) (hc : c < nc)
    (hcn : nx * ny * nc ≤ 2 ^ 31) : position nx nc x y c = .ok (index nx nc x y c) := by
  have hlt : index nx nc x y c < 2 ^ 31 := (index_lt hx hy hc).trans_le hcn
  have hnc : y * nx + x ≤ nc * (y * nx + x) := Nat.le_mul_of_pos_left _ (by omega)
  unfold index at hlt ⊢
  rw [position_eq_ok_iff]
  have hr : ((y : ℤ) * nx) = (y * nx : ℕ) := by push_cast; rfl
  have hs : (nc : ℤ) * ((y * nx : ℕ) + x) = (nc * (y * nx + x) : ℕ) := by push_cast; rfl
  rw [hr, hs]
  simp only [InInt32]
  omega

theorem sides_le_count (hnx : 2 ≤ nx) (hny : 2 ≤ ny) (hnc : 0 < nc) :
    nx * 2 ≤ nx * ny * nc ∧ ny * 2 ≤ nx * ny * nc ∧ 4 * nc ≤ nx * ny * nc := by
  have hn1 : 1 ≤ nc := hnc
  refine ⟨?_, ?_, Nat.mul_le_mul_right _ (Nat.mul_le_mul hnx hny)⟩
  · rw [Nat.mul_assoc]
    exact Nat.mul_le_mul_left _ (Nat.mul_le_mul hny hn1)
  · rw [Nat.mul_comm nx, Nat.mul_assoc]
    exact Nat.mul_le_mul_left _ (Nat.mul_le_mul hnx hn1)

variable {buf : Buffer ℕ}

theorem readAt_index {p : ℕ} (hp : p < buf.size) : readAt buf p = .ok (buf.get p) := by
  rw [readAt, if_neg (by omega), Int.toNat_natCast, Buffer.fetch_of_lt _ hp]

/-! ### Interpolation -/

/-- The value of `bilinn` for the samples `v 0 0`, `v 1 0`, `v 0 1` and `v 1 1`. -/
def mixture (bps : Depth) (v : ℕ → ℕ → ℕ) (rx ry : ℚ) : ℕ :=
  if rx < threshold ∧ ry < threshold then v 0 0
  else if rx < threshold then lroundTo bps (v 0 0 * (1 - rx - ry + rx * ry) + v 0 1 * (ry - rx * ry))
  else if ry < threshold then lroundTo bps (v 0 0 * (1 - rx - ry + rx * ry) + v 1 0 * (rx - rx * ry))
  else lroundTo bps (v 0 0 * (1 - rx - ry + rx * ry) + v 1 0 * (rx - rx * ry) + v 0 1 * (ry - rx * ry) +
    v 1 1 * rx * ry)

theorem interpolateTo_eq_mixture (bps : Depth) {sample : ℤ → ℤ → Except ScaleError ℕ} (rx ry : ℚ) {v : ℕ → ℕ → ℕ}
    (h : ∀ dx dy : ℕ, dx ≤ 1 → dy ≤ 1 → sample dx dy = .ok (v dx dy)) :
    interpolateTo bps sample rx ry = .ok (mixture bps v rx ry) := by
  have h00 : sample 0 0 = .ok (v 0 0) := h 0 0 (by omega) (by omega)
  have h01 : sample 0 1 = .ok (v 0 1) := h 0 1 (by omega) le_rfl
  have h10 : sample 1 0 = .ok (v 1 0) := h 1 0 le_rfl (by omega)
  have h11 : sample 1 1 = .ok (v 1 1) := h 1 1 le_rfl le_rfl
  unfold interpolateTo mixture
  rw [h00, h01, h10, h11]
  split_ifs <;> rfl

variable {bps : Depth}

theorem sample_of_interpolateTo {sample : ℤ → ℤ → Except ScaleError ℕ} {rx ry : ℚ} {a : ℕ}
    (h : interpolateTo bps sample rx ry = .ok a) (hx : ¬ rx < threshold) (hy : ¬ ry < threshold) :
    ∃ d, sample 1 1 = .ok d := by
  rw [interpolateTo, if_neg (fun h => hx h.1), if_neg hx, if_neg hy] at h
  simp only [bind_eq_ok] at h
  obtain ⟨_, -, _, -, _, -, d, hd, -⟩ := h
  exact ⟨d, hd⟩

theorem clampPixel_trunc (hn : 2 ≤ n) (x : ℚ) : clampPixel n (trunc x) = clampIndex n x := by
  unfold clampPixel clampIndex
  dsimp only
  split_ifs <;> omega

theorem trunc_bounds {x : ℚ} (h0 : 0 ≤ x) (hx : x ≤ n) : 0 ≤ trunc x ∧ trunc x ≤ n := by
  rw [trunc, if_pos h0]
  refine ⟨Int.floor_nonneg.mpr h0, ?_⟩
  exact_mod_cast (Int.floor_le x).trans hx

theorem trunc_natCast (n : ℕ) : trunc (n : ℚ) = n := by
  rw [trunc, if_pos (Nat.cast_nonneg n), Int.floor_natCast]

section
variable {nx ny nc k : ℕ} {bps : Depth} {buf : Buffer ℕ} {x y : ℚ}

theorem bilinnInt_eq (hnx : 2 ≤ nx) (hny : 2 ≤ ny) (hx : InInt32 (trunc x)) (hy : InInt32 (trunc y)) :
    bilinnInt bps buf nx ny x y k nc =
      interpolateTo bps (fun dx dy =>
          position nx nc (clampIndex nx x + dx) (clampIndex ny y + dy) k >>= readAt buf)
        (clampUnit (x - clampIndex nx x)) (clampUnit (y - clampIndex ny y)) := by
  rw [bilinnInt, if_neg (by omega), int32, if_pos hx, ok_bind, int32, if_pos hy, ok_bind]
  dsimp only
  rw [clampPixel_trunc hnx, clampPixel_trunc hny, Int.cast_natCast, Int.cast_natCast]

theorem readAt_position (hs : buf.size = nx * ny * nc) (hk : k < nc) (hc : nx * ny * nc ≤ 2 ^ 31)
    {ix iy dx dy : ℕ} (hix : ix + 1 < nx) (hiy : iy + 1 < ny) (hdx : dx ≤ 1) (hdy : dy ≤ 1) :
    (position nx nc ((ix : ℤ) + dx) ((iy : ℤ) + dy) k >>= readAt buf) =
      .ok (buf.get (index nx nc (ix + dx) (iy + dy) k)) := by
  have hp := index_lt (show ix + dx < nx by omega) (show iy + dy < ny by omega) hk
  rw [← Nat.cast_add, ← Nat.cast_add, position_eq_index (by omega) (by omega) hk hc, ok_bind,
    readAt_index (by rwa [hs])]

theorem bilinnInt_ok (hs : buf.size = nx * ny * nc) (hnx : 2 ≤ nx) (hny : 2 ≤ ny) (hk : k < nc)
    (hc : nx * ny * nc ≤ 2 ^ 31) (hx : 0 ≤ x ∧ x ≤ (nx - 1 : ℕ)) (hy : 0 ≤ y ∧ y ≤ (ny - 1 : ℕ)) :
    ∃ a, bilinnInt bps buf nx ny x y k nc = .ok a := by
  obtain ⟨hn', hN', -⟩ := sides_le_count hnx hny (Nat.zero_lt_of_lt hk)
  have ht := trunc_bounds hx.1 hx.2
  have htr := trunc_bounds hy.1 hy.2
  rw [bilinnInt_eq hnx hny ⟨by omega, by omega⟩ ⟨by omega, by omega⟩]
  exact ⟨_, interpolateTo_eq_mixture bps _ _ fun dx dy hdx hdy =>
    readAt_position hs hk hc (clampIndex_lt hnx x) (clampIndex_lt hny y) hdx hdy⟩

theorem interpolate_eq {sample : ℕ → ℕ → Except ImageError ℕ} {sample' : ℤ → ℤ → Except ScaleError ℕ}
    {v : ℕ → ℕ → ℕ} (h : ∀ dx dy : ℕ, dx ≤ 1 → dy ≤ 1 → sample dx dy = .ok (v dx dy) ∧ sample' dx dy = .ok (v dx dy))
    (rx ry : ℚ) : ∃ a, interpolate sample rx ry = .ok a ∧ interpolateTo .eight sample' rx ry = .ok a := by
  refine ⟨_, ?_, interpolateTo_eq_mixture .eight rx ry fun dx dy hdx hdy => (h dx dy hdx hdy).2⟩
  unfold interpolate mixture
  rw [(h 0 0 (by omega) (by omega)).1, (h 0 1 (by omega) le_rfl).1, (h 1 0 le_rfl (by omega)).1, (h 1 1 le_rfl le_rfl).1]
  split_ifs <;> rfl

theorem bilinn_eq_bilinnInt (hs : buf.size = nx * ny * nc) (hnx : 0 < nx) (hny : 0 < ny) (hk : k < nc)
    (hc : nx * ny * nc ≤ 2 ^ 31) (hx : InInt32 (trunc x)) (hy : InInt32 (trunc y)) :
    ∃ a, bilinn buf nx ny x y k nc = .ok a ∧ bilinnInt .eight buf nx ny x y k nc = .ok a := by
  by_cases hsm : nx < 2 ∨ ny < 2
  · have hr : k < buf.size := by
      rw [hs]
      exact hk.trans_le (Nat.le_mul_of_pos_left _ (Nat.mul_pos hnx hny))
    refine ⟨buf.get k, ?_, ?_⟩
    · rw [bilinn, if_pos hsm, Buffer.fetch_of_lt _ hr]
    · rw [bilinnInt, if_pos (by omega), readAt_index hr]
  · have hn' : 2 ≤ nx := by omega
    have hN' : 2 ≤ ny := by omega
    rw [bilinn, if_neg hsm, bilinnInt_eq hn' hN' hx hy]
    refine interpolate_eq (v := fun dx dy => buf.get (index nx nc (clampIndex nx x + dx) (clampIndex ny y + dy) k))
      (fun dx dy hdx hdy => ⟨?_, ?_⟩) _ _
    · have hix := clampIndex_lt hn' x
      have hiy := clampIndex_lt hN' y
      refine Buffer.fetch_of_lt _ ?_
      rw [hs]
      exact index_lt (by omega) (by omega) hk
    · exact readAt_position hs hk hc (clampIndex_lt hn' x) (clampIndex_lt hN' y) hdx hdy

end

section
variable {n nn i : ℕ}

theorem mediumLut_bounds (hnn : 2 ≤ nn) (hi : i < nn) : 0 ≤ mediumLut n nn i ∧ mediumLut n nn i ≤ (n - 1 : ℕ) := by
  have hp : (0 : ℚ) < (nn - 1 : ℕ) := Nat.cast_pos.mpr (by omega)
  refine ⟨by unfold mediumLut; positivity, ?_⟩
  rw [mediumLut, div_le_iff₀ hp, ← Nat.cast_mul, Nat.cast_le, Nat.mul_comm (n - 1)]
  exact (Nat.mod_le _ _).trans (Nat.mul_le_mul_right _ (by omega))

theorem mediumLut_of_fits (hf : TableFits n nn) (hi : i < nn) :
    mediumLut n nn i = ((i * (n - 1) : ℕ) : ℚ) / ((nn - 1 : ℕ) : ℚ) := by
  have hlt : i * (n - 1) < 2 ^ 64 := (Nat.mul_le_mul_right _ (by omega)).trans_lt hf
  rw [mediumLut, Nat.mod_eq_of_lt hlt]

theorem mediumLut_last (hf : TableFits n nn) (hnn : 2 ≤ nn) : mediumLut n nn (nn - 1) = (n - 1 : ℕ) := by
  have hne : ((nn - 1 : ℕ) : ℚ) ≠ 0 := Nat.cast_ne_zero.mpr (by omega)
  rw [mediumLut_of_fits hf (by omega), Nat.cast_mul, mul_div_assoc, mul_comm, div_mul_cancel₀ _ hne]

end

/-! ### When interpolation reaches its target -/

theorem asInt_eq_of_le (hp : 2 ≤ asInt n) (hn : n ≤ 2 ^ 31) : n < 2 ^ 31 ∧ asInt n = n := by
  unfold asInt at hp ⊢
  omega

theorem lt_of_int32 {v : ℤ} (h : int32 (trunc (n : ℚ)) = .ok v) : n < 2 ^ 31 ∧ v = n := by
  rw [trunc_natCast, int32_eq_ok_iff, InInt32] at h
  omega

theorem clampPixel_last (hn : 2 ≤ n) : clampPixel n ((n - 1 : ℕ) : ℤ) = ((n - 2 : ℕ) : ℤ) := by
  unfold clampPixel
  dsimp only
  split_ifs <;> omega

theorem clampUnit_last (hn : 2 ≤ n) : ¬ clampUnit (((n - 1 : ℕ) : ℚ) - (((n - 2 : ℕ) : ℤ) : ℚ)) < threshold := by
  have ho : ((n - 1 : ℕ) : ℚ) - (((n - 2 : ℕ) : ℤ) : ℚ) = 1 := by
    have hc : ((n - 1 : ℕ) : ℚ) = ((n - 2 : ℕ) : ℚ) + 1 := by
      rw [← Nat.cast_succ]
      congr 1
      omega
    rw [hc, Int.cast_natCast]
    ring
  rw [ho]
  norm_num [clampUnit, threshold]

theorem readAt_channels_iff (hr : n ≤ buf.size) : (∀ k < n, ∃ a, readAt buf (asInt k) = .ok a) ↔ n ≤ 2 ^ 31 := by
  constructor
  · intro h
    by_contra hl
    obtain ⟨a, ha⟩ := h (2 ^ 31) (by omega)
    have hn : asInt (2 ^ 31) = -2 ^ 31 := rfl
    rw [hn, readAt, if_pos (by decide)] at ha
    cases ha
  · intro hle k hk
    rw [asInt_of_lt (by omega), readAt_index (by omega)]
    exact ⟨_, rfl⟩

theorem position_of_bilinnInt {n c : ℤ} {a : ℕ} (hnx : 2 ≤ asInt nx) (hny : 2 ≤ asInt ny)
    (h : bilinnInt bps buf (asInt nx) (asInt ny) ((nx - 1 : ℕ) : ℚ) ((ny - 1 : ℕ) : ℚ) c n = .ok a) :
    2 ≤ nx ∧ 2 ≤ ny ∧ InInt32 (n * (nx * ny - 1)) ∧ InInt32 (n * (nx * ny - 1) + c) ∧ 0 ≤ n * (nx * ny - 1) + c := by
  rw [bilinnInt, if_neg (by omega)] at h
  simp only [bind_eq_ok] at h
  obtain ⟨ix, hix, iy, hiy, h⟩ := h
  obtain ⟨hnl, rfl⟩ := lt_of_int32 hix
  obtain ⟨hnt, rfl⟩ := lt_of_int32 hiy
  obtain ⟨-, hn⟩ := asInt_eq_of_le hnx (by omega)
  obtain ⟨-, hnq⟩ := asInt_eq_of_le hny (by omega)
  rw [hn] at hnx
  rw [hnq] at hny
  rw [hn, hnq, clampPixel_last (by omega), clampPixel_last (by omega)] at h
  obtain ⟨d, hd⟩ := sample_of_interpolateTo h (clampUnit_last (by omega)) (clampUnit_last (by omega))
  simp only [bind_eq_ok] at hd
  obtain ⟨p, hp, hr⟩ := hd
  rw [position_eq_ok_iff] at hp
  have hpx : (((ny - 2 : ℕ) : ℤ) + 1) * nx + (((nx - 2 : ℕ) : ℤ) + 1) = nx * ny - 1 := by
    rw [Nat.cast_sub (by omega), Nat.cast_sub (by omega)]
    push_cast
    ring
  rw [hpx] at hp
  obtain ⟨-, -, hs, hsm, rfl⟩ := hp
  refine ⟨by omega, by omega, hs, hsm, ?_⟩
  by_contra hng
  rw [readAt, if_pos (not_le.mp hng)] at hr
  cases hr

theorem count_of_bilinnInt (hnx : 2 ≤ asInt nx) (hny : 2 ≤ asInt ny)
    (hnc : 0 < nc) (h : ∀ k < nc, ∃ a, bilinnInt bps buf (asInt nx) (asInt ny) ((nx - 1 : ℕ) : ℚ)
      ((ny - 1 : ℕ) : ℚ) (asInt k) (asInt nc) = .ok a) : nx * ny * nc ≤ 2 ^ 31 := by
  obtain ⟨a, ha⟩ := h (nc - 1) (by omega)
  obtain ⟨hx, hy, hs, hsm, -⟩ := position_of_bilinnInt hnx hny ha
  have hf : 4 ≤ nx * ny := Nat.mul_le_mul hx hy
  rcases Nat.lt_trichotomy nc (2 ^ 31) with hlt | heq | hgt
  · rw [asInt_of_lt hlt, asInt_of_lt (by omega), Nat.cast_sub (by omega)] at hsm
    have hc : (nx * ny * nc : ℤ) - 1 < 2 ^ 31 := by
      have hle := hsm.2
      push_cast at hle
      linarith
    exact_mod_cast Int.le_of_sub_one_lt hc
  · -- the number of channels is negative as an int, and the position overflows
    have hng : asInt nc = -2 ^ 31 := by rw [heq]; rfl
    rw [hng, InInt32] at hs
    have hf' : (4 : ℤ) ≤ nx * ny := by exact_mod_cast hf
    omega
  · -- so is the channel itself, and the position is negative
    obtain ⟨b, hb⟩ := h (2 ^ 31) hgt
    obtain ⟨-, -, hs', -, hn⟩ := position_of_bilinnInt hnx hny hb
    have hng : asInt (2 ^ 31) = -2 ^ 31 := rfl
    rw [hng] at hn
    rw [InInt32] at hs'
    omega

namespace SipiImage

variable {img : SipiImage} {nnx nny : ℕ}

theorem scaleMedium_reaches_iff (hf : img.Full) (hnc : 0 < img.nc) (hsd : ¬ Degenerate img nnx nny)
    (hx : TableFits img.nx nnx) (hy : TableFits img.ny nny) :
    img.Reaches nnx nny (img.scaleMedium nnx nny) ↔ img.Countable := by
  obtain ⟨hn, hnn, hnx, hny⟩ := two_le_of_not_degenerate hsd
  rw [scaleMedium, reaches_of_not_degenerate hsd, fill_ok_iff, Countable]
  split_ifs with hs
  · -- a side is not positive as an int: only the first pixel is read
    have hr : ∀ k, ∀ x y : ℚ, bilinnInt img.bps img.pixels (asInt img.nx) (asInt img.ny) x y (asInt k)
        (asInt img.nc) = readAt img.pixels (asInt k) := fun k x y => if_pos hs
    have hrm : img.nc ≤ img.pixels.size := by
      rw [hf]
      exact Nat.le_mul_of_pos_left _ (Nat.mul_pos (by omega) (by omega))
    simp only [hr, ← readAt_channels_iff hrm]
    constructor
    · intro h
      exact h 0 (by omega) 0 (by omega)
    · intro h i _ j _
      exact h
  · rw [not_or, not_lt, not_lt] at hs
    constructor
    · intro h
      have hl := h (nnx - 1) (by omega) (nny - 1) (by omega)
      rw [mediumLut_last hx hn, mediumLut_last hy hnn] at hl
      exact count_of_bilinnInt hs.1 hs.2 hnc hl
    · intro hc i hi j hj k hk
      obtain ⟨hN', hny', hn'⟩ := sides_le_count hnx hny hnc
      rw [asInt_of_lt (by omega), asInt_of_lt (by omega), asInt_of_lt (by omega), asInt_of_lt (by omega)]
      exact bilinnInt_ok hf hnx hny hk hc (mediumLut_bounds hn hi) (mediumLut_bounds hnn hj)

/-- **When scaling reaches its target**, in each of the three ways, if the products of the tables are `size_t`s: the
image has the sides already, or no side is at most 1 and `bilinn` can count the samples. -/
theorem reachesTarget_iff (img : SipiImage) (nnx nny : ℕ) (hfull : img.Full) (hscale : img.InScale)
    (hnc : 0 < img.nc) (hx : TableFits img.nx nnx) (hy : TableFits img.ny nny) :
    (∀ method, img.Reaches nnx nny (img.scaleBy nnx nny method)) ↔
      if nnx ≤ 1 ∨ nny ≤ 1 ∨ img.nx ≤ 1 ∨ img.ny ≤ 1 then img.nx = nnx ∧ img.ny = nny else img.Countable := by
  split_ifs with hs
  · have hr := reaches_of_degenerate hfull hs
    constructor
    · intro h
      exact (hr _).mp (h .high)
    · intro h method
      cases method with
      | high | medium | low => exact (hr _).mpr h
  · rw [← scaleMedium_reaches_iff hfull hnc hs hx hy]
    constructor
    · intro h
      exact h .medium
    · intro h method
      cases method with
      | high => exact scale_reaches hfull hscale hs
      | medium => exact h
      | low => exact scaleFast_reaches hfull hs

theorem reachesTarget_enlarged :
    (ofSamples 3 2 fun x y => x + y).InScale ∧
      ∀ method, (ofSamples 3 2 fun x y => x + y).Reaches 5 4 ((ofSamples 3 2 fun x y => x + y).scaleBy 5 4 method) := by
  have hf : (ofSamples 3 2 fun x y => x + y).Full := rfl
  have hs : (ofSamples 3 2 fun x y => x + y).InScale := by
    intro p hp
    have hp' : p < 6 := hp
    show p % 3 + p / 3 ≤ 65535
    omega
  exact ⟨hs, (reachesTarget_iff _ 5 4 hf hs Nat.one_pos (by decide) (by decide)).mpr (by decide)⟩

theorem two_rows_stay : ¬ ∀ method,
    (ofSamples 4 2 fun _ _ => 7).Reaches 2 1 ((ofSamples 4 2 fun _ _ => 7).scaleBy 2 1 method) := by
  intro h
  obtain ⟨done, out, ho, hnx, -⟩ := h .high
  have hs : (ofSamples 4 2 fun _ _ => 7).scaleBy 2 1 .high = .ok (false, ofSamples 4 2 fun _ _ => 7) := rfl
  rw [hs] at ho
  obtain rfl : ofSamples 4 2 (fun _ _ => 7) = out := congrArg Prod.snd (Except.ok.inj ho)
  exact absurd hnx (by decide)

end SipiImage

end Sipi.Image
