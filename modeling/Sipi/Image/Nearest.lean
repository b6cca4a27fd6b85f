import Sipi.Image.Orientation
import Sipi.Image.Scale

/-!
# Nearest pixels

`SipiImage::scaleFast` of `src/SipiImage.cpp` takes, for each pixel of the new image, the one of the old image that
lies nearest: `lround(i * (nx - 1) / (nnx - 1))`.
-/

namespace Sipi.Image

open Sipi.Theory

/-! ### One side -/

/-- Where a new pixel lies on the old side. -/
def exactPosition (n nn i : ℕ) : ℚ := i * ((n : ℚ) - 1) / ((nn : ℚ) - 1)

/-- Every entry is nearest to its position. -/
def NearestOn (n nn : ℕ) : Prop := ∀ i < nn, |(fastLut n nn i : ℚ) - exactPosition n nn i| ≤ 1 / 2

/-- **Whole or half positions**, without a wrap. -/
def WholeOrHalf (n nn : ℕ) : Prop := (nn - 1) * (n - 1) < 2 ^ 64 ∧ nn - 1 ∣ 2 * (n - 1)

instance (n nn : ℕ) : Decidable (WholeOrHalf n nn) := inferInstanceAs (Decidable (_ ∧ _))

section
variable {p q i : ℕ}

theorem exactPosition_succ (p q i : ℕ) : exactPosition (p + 1) (q + 1) i = (i * p : ℕ) / (q : ℚ) := by
  unfold exactPosition
  push_cast
  ring

theorem exactPosition_last (hq : 0 < q) : exactPosition (p + 1) (q + 1) q = p := by
  have hne : (q : ℚ) ≠ 0 := Nat.cast_ne_zero.mpr hq.ne'
  rw [exactPosition_succ, Nat.cast_mul, mul_div_assoc, mul_comm, div_mul_cancel₀ _ hne]

theorem exactPosition_sub_fastLut (hq : 0 < q) (hw : i * p < 2 ^ 64) :
    exactPosition (p + 1) (q + 1) i - fastLut (p + 1) (q + 1) i = (i * p % q : ℕ) / (q : ℚ) := by
  have hne : (q : ℚ) ≠ 0 := Nat.cast_ne_zero.mpr hq.ne'
  have hs : ((i * p : ℕ) : ℚ) = q * (i * p / q : ℕ) + (i * p % q : ℕ) := by
    exact_mod_cast (Nat.div_add_mod (i * p) q).symm
  rw [exactPosition_succ, fastLut_eq, Nat.add_sub_cancel, Nat.add_sub_cancel, Nat.mod_eq_of_lt hw, hs, add_div,
    mul_div_cancel_left₀ _ hne, add_sub_cancel_left]

theorem nearest_entry_iff (hq : 0 < q) (hw : i * p < 2 ^ 64) :
    |(fastLut (p + 1) (q + 1) i : ℚ) - exactPosition (p + 1) (q + 1) i| ≤ 1 / 2 ↔ 2 * (i * p % q) ≤ q := by
  have hp : (0 : ℚ) < q := Nat.cast_pos.mpr hq
  rw [abs_sub_comm, exactPosition_sub_fastLut hq hw, abs_of_nonneg (by positivity), div_le_div_iff₀ hp two_pos,
    one_mul, mul_comm]
  exact_mod_cast Iff.rfl

theorem no_wrap_of_nearest (hq : 0 < q)
    (h : |(fastLut (p + 1) (q + 1) q : ℚ) - exactPosition (p + 1) (q + 1) q| ≤ 1 / 2) : q * p < 2 ^ 64 := by
  by_contra hw
  have hl : q * p % 2 ^ 64 / q < p := Nat.div_lt_of_lt_mul (by omega)
  rw [exactPosition_last hq, fastLut_eq, Nat.add_sub_cancel, Nat.add_sub_cancel, abs_sub_comm, abs_le] at h
  have ho : ((q * p % 2 ^ 64 / q : ℕ) : ℚ) + 1 ≤ p := by exact_mod_cast hl
  linarith [h.2]

theorem dvd_two_mul_iff (hq : 0 < q) : (∀ i ≤ q, 2 * (i * p % q) ≤ q) ↔ q ∣ 2 * p := by
  constructor
  · intro h
    have ho := h 1 hq
    rw [Nat.one_mul] at ho
    set r := p % q with hr
    have hd : 2 * p % q = 2 * r % q := by rw [hr, Nat.mul_mod_mod]
    rw [Nat.dvd_iff_mod_eq_zero, hd]
    by_contra hne
    have hrp : 0 < r := Nat.pos_of_ne_zero fun h0 => hne (by rw [h0, Nat.mul_zero, Nat.zero_mod])
    have hlt : 2 * r < q := lt_of_le_of_ne ho fun heq => hne (by rw [heq, Nat.mod_self])
    -- the first multiple of `r` beyond half of `q` is still below `q`
    have hsp := Nat.div_add_mod q (2 * r)
    have hrs := Nat.mod_lt q (show 0 < 2 * r by omega)
    have hm : (q / (2 * r) + 1) * r = r * (q / (2 * r)) + r := by ring
    have hh : 2 * r * (q / (2 * r)) = 2 * (r * (q / (2 * r))) := by ring
    have hs : q / (2 * r) + 1 ≤ q := by
      have hle : q / (2 * r) ≤ q / 2 := Nat.div_le_div_left (by omega) two_pos
      omega
    have hb := h _ hs
    rw [Nat.mul_mod, ← hr, Nat.mod_mul_mod, Nat.mod_eq_of_lt (by omega)] at hb
    omega
  · intro hdv i _
    have hz : 2 * (i * p % q) % q = 0 := by
      rw [Nat.mul_mod_mod, Nat.mul_left_comm]
      exact Nat.mod_eq_zero_of_dvd (hdv.mul_left i)
    by_contra hgt
    have hlt := Nat.mod_lt (i * p) hq
    rw [Nat.mod_eq_sub_mod (by omega), Nat.mod_eq_of_lt (by omega)] at hz
    omega

end

theorem nearestOn_iff {n nn : ℕ} (hn : 2 ≤ n) (hnn : 2 ≤ nn) : NearestOn n nn ↔ WholeOrHalf n nn := by
  obtain ⟨p, rfl⟩ := Nat.exists_eq_add_of_le' (show 1 ≤ n by omega)
  obtain ⟨q, rfl⟩ := Nat.exists_eq_add_of_le' (show 1 ≤ nn by omega)
  have hq : 0 < q := by omega
  rw [WholeOrHalf, Nat.add_sub_cancel, Nat.add_sub_cancel, ← dvd_two_mul_iff hq]
  have hw : q * p < 2 ^ 64 → ∀ i ≤ q, i * p < 2 ^ 64 := fun h i hi => (Nat.mul_le_mul_right p hi).trans_lt h
  constructor
  · intro h
    have hl := no_wrap_of_nearest hq (h q (by omega))
    exact ⟨hl, fun i hi => (nearest_entry_iff hq (hw hl i hi)).mp (h i (by omega))⟩
  · rintro ⟨hl, hh⟩ i hi
    exact (nearest_entry_iff hq (hw hl i (by omega))).mpr (hh i (by omega))

theorem fastLut_mul_eq {p q i : ℕ} (hq : 0 < q) (h : WholeOrHalf (p + 1) (q + 1)) (hi : i ≤ q)
    (hh : ∀ c : ℕ, exactPosition (p + 1) (q + 1) i ≠ c + 1 / 2) : q * fastLut (p + 1) (q + 1) i = i * p := by
  have hw : i * p < 2 ^ 64 := (Nat.mul_le_mul_right p hi).trans_lt h.1
  have hle : 2 * (i * p % q) ≤ q := (dvd_two_mul_iff hq).mpr h.2 i hi
  have hne : 2 * (i * p % q) ≠ q := by
    intro heq
    refine hh (fastLut (p + 1) (q + 1) i) ?_
    have hp : (q : ℚ) ≠ 0 := Nat.cast_ne_zero.mpr hq.ne'
    have ht : (2 : ℚ) * (i * p % q : ℕ) = q := by exact_mod_cast heq
    have hr : ((i * p % q : ℕ) : ℚ) / q = 1 / 2 := by
      rw [div_eq_div_iff hp two_ne_zero, one_mul, mul_comm, ht]
    rw [← hr, ← exactPosition_sub_fastLut hq hw, add_sub_cancel]
  have hz : 2 * (i * p % q) % q = 0 := by
    have hd : q ∣ 2 * p := h.2
    rw [Nat.mul_mod_mod, Nat.mul_left_comm]
    exact Nat.mod_eq_zero_of_dvd (hd.mul_left i)
  rw [Nat.mod_eq_of_lt (lt_of_le_of_ne hle hne)] at hz
  rw [fastLut_eq, Nat.add_sub_cancel, Nat.add_sub_cancel, Nat.mod_eq_of_lt hw]
  exact Nat.mul_div_cancel' (Nat.dvd_of_mod_eq_zero (by omega))

/-- No new pixel lies half way. -/
def NoneHalfWay (n nn : ℕ) : Prop := ∀ i < nn, ∀ c : ℕ, exactPosition n nn i ≠ c + 1 / 2

theorem fastLut_rev {n nn i : ℕ} (hn : 2 ≤ n) (hnn : 2 ≤ nn) (h : WholeOrHalf n nn) (hh : NoneHalfWay n nn)
    (hi : i < nn) : fastLut n nn (nn - i - 1) = n - fastLut n nn i - 1 := by
  have hlt := SipiImage.fastLut_lt hn hnn hi
  obtain ⟨p, rfl⟩ := Nat.exists_eq_add_of_le' (show 1 ≤ n by omega)
  obtain ⟨q, rfl⟩ := Nat.exists_eq_add_of_le' (show 1 ≤ nn by omega)
  have hq : 0 < q := by omega
  have hl := fastLut_mul_eq hq h (show i ≤ q by omega) (hh i hi)
  have hr := fastLut_mul_eq hq h (show q + 1 - i - 1 ≤ q by omega) (hh _ (by omega))
  refine Nat.eq_of_mul_eq_mul_left hq ?_
  rw [hr, show p + 1 - fastLut (p + 1) (q + 1) i - 1 = p - fastLut (p + 1) (q + 1) i by omega, Nat.mul_sub, hl,
    show q + 1 - i - 1 = q - i by omega, Nat.sub_mul]

theorem fastLut_self {n i : ℕ} (hn : 2 ≤ n) (h : WholeOrHalf n n) (hi : i < n) : fastLut n n i = i := by
  have hw : i * (n - 1) < 2 ^ 64 := (Nat.mul_le_mul_right _ (by omega)).trans_lt h.1
  rw [fastLut_eq, Nat.mod_eq_of_lt hw, Nat.mul_div_cancel _ (by omega)]

namespace SipiImage

variable {img : SipiImage} {nnx nny : ℕ}

/-- The picture that `scaleFast` makes. -/
def fastPicture (img : SipiImage) (nnx nny : ℕ) : Picture (ℕ → ℕ) :=
  ⟨nnx, nny, fun x y k =>
    img.pixels.get (index img.nx img.nc (fastLut img.nx nnx x) (fastLut img.ny nny y) k)⟩

theorem scaleFast_shows (hfl : img.Full) (hs : ¬ Degenerate img nnx nny) :
    ∃ out, img.scaleFast nnx nny = .ok (true, img.withPixels nnx nny out) ∧
      (img.withPixels nnx nny out).Shows (img.fastPicture nnx nny) := by
  obtain ⟨hn, hnn, hnx, hny⟩ := two_le_of_not_degenerate hs
  have he : Ends (fill ScaleError.overrun 0 nnx nny img.nc fun x y k =>
      img.pixels.fetch .overrun (index img.nx img.nc (fastLut img.nx nnx x) (fastLut img.ny nny y) k))
      (Filled nnx nny img.nc (fun x y k v =>
        v = img.pixels.get (index img.nx img.nc (fastLut img.nx nnx x) (fastLut img.ny nny y) k))
        (nnx * nny * img.nc)) fun _ => False := by
    refine fill_ends fun x hx y hy k hk => ?_
    rw [Buffer.fetch_of_lt _ (hfl.sample_lt (fastLut_lt hnx hn hx) (fastLut_lt hny hnn hy) hk)]
    exact rfl
  obtain ⟨out, ho, hf⟩ := he.exists_ok
  refine ⟨out, ?_, rfl, rfl, hf.size, fun x y k hk => hf.get x.isLt y.isLt hk⟩
  rw [scaleFast, scaleWith, if_neg hs, ho]
  rfl

/-- Each sample is that of a nearest pixel. -/
def IsNearest (img out : SipiImage) (nnx nny : ℕ) : Prop :=
  ∀ x < nnx, ∀ y < nny, ∀ k < img.nc, ∃ c < img.nx, ∃ r < img.ny,
    |(c : ℚ) - exactPosition img.nx nnx x| ≤ 1 / 2 ∧ |(r : ℚ) - exactPosition img.ny nny y| ≤ 1 / 2 ∧
      out.pixels.get (index nnx img.nc x y k) = img.pixels.get (index img.nx img.nc c r k)

/-- **Sampling of nearest pixels.** -/
structure SamplesNearest (img : SipiImage) (nnx nny : ℕ) : Prop where
  /-- Nearest pixels. -/
  nearest : ∃ out, img.scaleFast nnx nny = .ok (true, out) ∧ out.nx = nnx ∧ out.ny = nny ∧ out.nc = img.nc ∧
    out.bps = img.bps ∧ out.Full ∧ IsNearest img out nnx nny
  /-- The same sides. -/
  same : nnx = img.nx → nny = img.ny → ∃ out, img.scaleFast nnx nny = .ok (true, out) ∧ out.Alike img
  mirror : NoneHalfWay img.nx nnx → ∃ before scaled after both,
    img.rotate .zero true = .ok before ∧ before.scaleFast nnx nny = .ok (true, both) ∧
      img.scaleFast nnx nny = .ok (true, scaled) ∧ scaled.rotate .zero true = .ok after ∧ both.Alike after

theorem scaleFast_nearest (hf : img.Full) (hsd : ¬ Degenerate img nnx nny) (hx : NearestOn img.nx nnx)
    (hy : NearestOn img.ny nny) : ∃ out, img.scaleFast nnx nny = .ok (true, out) ∧ out.nx = nnx ∧ out.ny = nny ∧
      out.nc = img.nc ∧ out.bps = img.bps ∧ out.Full ∧ IsNearest img out nnx nny := by
  obtain ⟨hn, hnn, hnx, hny⟩ := two_le_of_not_degenerate hsd
  obtain ⟨out, ho, hs⟩ := scaleFast_shows hf hsd
  refine ⟨_, ho, rfl, rfl, rfl, rfl, hs.full, fun x hxl y hyl k hk => ?_⟩
  exact ⟨_, fastLut_lt hnx hn hxl, _, fastLut_lt hny hnn hyl, hx x hxl, hy y hyl,
    hs.pixels.sample ⟨x, hxl⟩ ⟨y, hyl⟩ k hk⟩

theorem scaleFast_same (hf : img.Full) (hnx : 2 ≤ img.nx) (hny : 2 ≤ img.ny) (hx : WholeOrHalf img.nx img.nx)
    (hy : WholeOrHalf img.ny img.ny) : ∃ out, img.scaleFast img.nx img.ny = .ok (true, out) ∧ out.Alike img := by
  have hsd : ¬ Degenerate img img.nx img.ny := by unfold Degenerate; omega
  obtain ⟨out, ho, hs⟩ := scaleFast_shows hf hsd
  have hp : img.fastPicture img.nx img.ny = img.picture := by
    rw [fastPicture, picture, Buffer.picture]
    congr
    funext x y k
    rw [fastLut_self hnx hx x.isLt, fastLut_self hny hy y.isLt]
  rw [hp] at hs
  exact ⟨_, ho, hs.alike hf.shows rfl rfl⟩

theorem scaleFast_mirror (hf : img.Full) (hs : ¬ Degenerate img nnx nny) (hx : WholeOrHalf img.nx nnx)
    (hh : NoneHalfWay img.nx nnx) : ∃ before scaled after both,
    img.rotate .zero true = .ok before ∧ before.scaleFast nnx nny = .ok (true, both) ∧
      img.scaleFast nnx nny = .ok (true, scaled) ∧ scaled.rotate .zero true = .ok after ∧ both.Alike after := by
  obtain ⟨hn, hnn, hnx, hny⟩ := two_le_of_not_degenerate hs
  obtain ⟨before, hbf, hb, nx, ny, pixels, rfl⟩ := rotate_shows (.zero, true) hf.shows
  obtain rfl : nx = img.nx := hb.nx
  obtain rfl : ny = img.ny := hb.ny
  obtain ⟨both, hbt, hsh⟩ := scaleFast_shows hb.full hs
  obtain ⟨scaled, hsc, hss⟩ := scaleFast_shows hf hs
  obtain ⟨after, haf, ha, nx', ny', pixels', rfl⟩ := rotate_shows (.zero, true) hss
  refine ⟨_, _, _, _, hbf, hbt, hsc, haf, ?_⟩
  have hm : ((img.withPixels img.nx img.ny pixels).withPixels nnx nny both).Shows
      (img.fastPicture nnx nny).mirror := by
    refine ⟨rfl, rfl, hsh.pixels.size, fun x y k hk => ?_⟩
    have hlt := fastLut_lt hnx hn x.isLt
    have hsm := hb.pixels.sample ⟨_, hlt⟩ ⟨_, fastLut_lt hny hnn y.isLt⟩ k hk
    have hc : fastLut img.nx nnx (nnx - (x + 1)) = img.nx - (fastLut img.nx nnx x + 1) := by
      rw [← Nat.sub_sub, fastLut_rev hnx hn hx hh x.isLt, Nat.sub_sub]
    calc both.get (index nnx img.nc x y k)
        = pixels.get (index img.nx img.nc (fastLut img.nx nnx x) (fastLut img.ny nny y) k) :=
          hsh.pixels.sample x y k hk
      _ = img.pixels.get (index img.nx img.nc (img.nx - (fastLut img.nx nnx x + 1)) (fastLut img.ny nny y) k) := hsm
      _ = img.pixels.get (index img.nx img.nc (fastLut img.nx nnx (nnx - (x + 1))) (fastLut img.ny nny y) k) := by
          rw [hc]
  exact hm.alike ha rfl rfl

/-- A black image with one pixel that is not. -/
def onePixel (nx ny c r : ℕ) : SipiImage := ofSamples nx ny fun x y => if x = c ∧ y = r then 1 else 0

theorem onePixel_inScale (nx ny c r : ℕ) : (onePixel nx ny c r).InScale := by
  intro p _
  show (if p % nx = c ∧ p / nx = r then 1 else 0) ≤ 65535
  split_ifs <;> omega

theorem onePixel_get {nx x : ℕ} (hx : x < nx) (ny c r y : ℕ) :
    (onePixel nx ny c r).pixels.get (index nx 1 x y 0) = if x = c ∧ y = r then 1 else 0 := by
  obtain ⟨hd, hm⟩ := (eq_iff_div_mod hx).mp (rfl : y * nx + x = y * nx + x)
  show (if index nx 1 x y 0 % nx = c ∧ index nx 1 x y 0 / nx = r then 1 else 0) = _
  rw [index, Nat.one_mul, Nat.add_zero, hd, hm]

theorem entries_nearest {nx ny i j : ℕ} (hnx : 2 ≤ nx) (hny : 2 ≤ ny) (hnn : 2 ≤ nnx) (hN : 2 ≤ nny) (hi : i < nnx)
    (hj : j < nny) (h : (onePixel nx ny (fastLut nx nnx i) (fastLut ny nny j)).SamplesNearest nnx nny) :
    |(fastLut nx nnx i : ℚ) - exactPosition nx nnx i| ≤ 1 / 2 ∧
      |(fastLut ny nny j : ℚ) - exactPosition ny nny j| ≤ 1 / 2 := by
  set img := onePixel nx ny (fastLut nx nnx i) (fastLut ny nny j)
  have hsd : ¬ Degenerate img nnx nny := by
    show ¬ (nnx ≤ 1 ∨ nny ≤ 1 ∨ nx ≤ 1 ∨ ny ≤ 1)
    omega
  have hf : img.Full := rfl
  obtain ⟨pixels, hpx, hsh⟩ := scaleFast_shows hf hsd
  obtain ⟨out, hot, -, -, -, -, -, hn⟩ := h.nearest
  obtain rfl : img.withPixels nnx nny pixels = out := congrArg Prod.snd (Except.ok.inj (hpx.symm.trans hot))
  obtain ⟨c, hc, r, hr, hcl, hrw, hs⟩ := hn i hi j hj 0 Nat.one_pos
  have ho := (hsh.pixels.sample ⟨i, hi⟩ ⟨j, hj⟩ 0 Nat.one_pos).symm.trans hs
  have hl := onePixel_get (fastLut_lt hnx hnn hi) ny (fastLut nx nnx i) (fastLut ny nny j) (fastLut ny nny j)
  rw [if_pos ⟨rfl, rfl⟩] at hl
  have hrg := (hl.symm.trans ho).trans (onePixel_get hc ny _ _ r)
  split_ifs at hrg with hp
  · rw [hp.1] at hcl
    rw [hp.2] at hrw
    exact ⟨hcl, hrw⟩

/-- **When `scaleFast` is sampling of nearest pixels**: exactly if the positions of the columns and of the rows are
whole or half numbers, and can be counted. -/
theorem samplesNearest_iff (nx ny nnx nny : ℕ) (hnx : 2 ≤ nx) (hny : 2 ≤ ny) (hnnx : 2 ≤ nnx) (hnny : 2 ≤ nny) :
    (∀ img : SipiImage, img.nx = nx → img.ny = ny → img.Full → img.InScale → img.SamplesNearest nnx nny) ↔
      WholeOrHalf nx nnx ∧ WholeOrHalf ny nny := by
  rw [← nearestOn_iff hnx hnnx, ← nearestOn_iff hny hnny]
  constructor
  · intro h
    have he : ∀ i < nnx, ∀ j < nny, |(fastLut nx nnx i : ℚ) - exactPosition nx nnx i| ≤ 1 / 2 ∧
        |(fastLut ny nny j : ℚ) - exactPosition ny nny j| ≤ 1 / 2 := fun i hi j hj =>
      entries_nearest hnx hny hnnx hnny hi hj (h (onePixel nx ny _ _) rfl rfl rfl (onePixel_inScale nx ny _ _))
    exact ⟨fun i hi => (he i hi 0 (by omega)).1, fun j hj => (he 0 (by omega) j hj).2⟩
  · rintro ⟨hx, hy⟩ img rfl rfl hf -
    have hs : ¬ Degenerate img nnx nny := by unfold Degenerate; omega
    refine ⟨scaleFast_nearest hf hs hx hy, ?_, ?_⟩
    · rintro rfl rfl
      exact scaleFast_same hf hnx hny ((nearestOn_iff hnx hnnx).mp hx) ((nearestOn_iff hny hnny).mp hy)
    · exact scaleFast_mirror hf hs ((nearestOn_iff hnx hnnx).mp hx)

theorem samplesNearest_halved : (ofSamples 5 3 fun x y => 10 * x + 100 * y).SamplesNearest 3 3 := by
  have hs : (ofSamples 5 3 fun x y => 10 * x + 100 * y).InScale := by
    intro p (hp : p < 15)
    show 10 * (p % 5) + 100 * (p / 5) ≤ 65535
    omega
  exact (samplesNearest_iff 5 3 3 3 (by decide) (by decide) (by decide) (by decide)).mpr (by decide) _ rfl rfl rfl hs

theorem enlarged_not_nearest : ¬ (onePixel 3 2 0 0).SamplesNearest 4 2 := by
  intro h
  have hf : fastLut 3 4 1 = 0 := by norm_num [fastLut_eq]
  have ht : fastLut 2 2 0 = 0 := by norm_num [fastLut_eq]
  have hn : |(fastLut 3 4 1 : ℚ) - exactPosition 3 4 1| ≤ 1 / 2 ∧
      |(fastLut 2 2 0 : ℚ) - exactPosition 2 2 0| ≤ 1 / 2 :=
    entries_nearest (by decide) (by decide) (by decide) (by decide) (by decide) (by decide) (by rwa [hf, ht])
  norm_num [hf, exactPosition] at hn

end SipiImage

end Sipi.Image
