import Sipi.Image.Scale

/-!
# Interpolation that is an average

`SipiImage::scaleMedium` of `src/SipiImage.cpp` gives every sample of the new image a weighted sum of four samples
of the old one.

## Honest scope

The floating point numbers are exact.
-/

namespace Sipi.Image

open Sipi.Theory

variable {v : ℕ → ℕ → ℕ} {bps : Depth}

theorem lroundTo_bounds {x : ℚ} {a b : ℕ} (hx : 0 ≤ x) (ha : (a : ℚ) - 1 / 2 ≤ x) (hb : x ≤ b)
    (hs : b ≤ bps.fullScale) : a ≤ lroundTo bps x ∧ lroundTo bps x ≤ b := by
  obtain ⟨hl, hh⟩ := halfAway_bounds hx ha hb
  have hn := halfAway_nonneg hx
  rw [lroundTo, Int.emod_eq_of_lt hn (by omega)]
  omega

theorem mix_bounds {lo hi a b r : ℚ} (ha : lo ≤ a ∧ a ≤ hi) (hb : lo ≤ b ∧ b ≤ hi) (hr : 0 ≤ r ∧ r ≤ 1) :
    lo ≤ a * (1 - r) + b * r ∧ a * (1 - r) + b * r ≤ hi := by
  have hrs : 0 ≤ 1 - r := by linarith [hr.2]
  constructor
  · have hl := mul_le_mul_of_nonneg_right ha.1 hrs
    have hrg := mul_le_mul_of_nonneg_right hb.1 hr.1
    linarith
  · have hl := mul_le_mul_of_nonneg_right ha.2 hrs
    have hrg := mul_le_mul_of_nonneg_right hb.2 hr.1
    linarith

variable {lo hi : ℕ}

theorem cast_bounds {a : ℕ} (h : lo ≤ a ∧ a ≤ hi) : (lo : ℚ) ≤ a ∧ (a : ℚ) ≤ hi :=
  ⟨Nat.cast_le.mpr h.1, Nat.cast_le.mpr h.2⟩

theorem lroundTo_pair_bounds {a b : ℕ} {lost r : ℚ} (ha : lo ≤ a ∧ a ≤ hi) (hb : lo ≤ b ∧ b ≤ hi)
    (hs : hi ≤ bps.fullScale) (hl : 0 ≤ lost ∧ lost ≤ 1) (hr : 0 ≤ r ∧ r ≤ 1)
    (hu : lost * bps.fullScale ≤ 1 / 2) {x : ℚ} (hx : x = (1 - lost) * (a * (1 - r) + b * r)) :
    lo ≤ lroundTo bps x ∧ lroundTo bps x ≤ hi := by
  have hm := mix_bounds (cast_bounds ha) (cast_bounds hb) hr
  have hf : (hi : ℚ) ≤ bps.fullScale := Nat.cast_le.mpr hs
  have hlo : (0 : ℚ) ≤ lo := Nat.cast_nonneg lo
  subst hx
  refine lroundTo_bounds ?_ ?_ ?_ hs
  · exact mul_nonneg (by linarith) (hlo.trans hm.1)
  · have hsn : lost * (a * (1 - r) + b * r) ≤ lost * bps.fullScale :=
      mul_le_mul_of_nonneg_left (hm.2.trans hf) hl.1
    linarith
  · have hls : 0 ≤ lost * (a * (1 - r) + b * r) := mul_nonneg hl.1 (hlo.trans hm.1)
    linarith

/-- What is left out at `r` cannot be seen. -/
def Unseen (bps : Depth) (r : ℚ) : Prop := r < threshold → r * bps.fullScale ≤ 1 / 2

theorem mixture_bounds {rx ry : ℚ}
    (hv : ∀ dx dy : ℕ, dx ≤ 1 → dy ≤ 1 → lo ≤ v dx dy ∧ v dx dy ≤ hi) (hs : hi ≤ bps.fullScale)
    (hrx : 0 ≤ rx ∧ rx ≤ 1) (hry : 0 ≤ ry ∧ ry ≤ 1) (hx : Unseen bps rx) (hy : Unseen bps ry) :
    lo ≤ mixture bps v rx ry ∧ mixture bps v rx ry ≤ hi := by
  have h00 := hv 0 0 (by omega) (by omega)
  have h01 := hv 0 1 (by omega) le_rfl
  have h10 := hv 1 0 le_rfl (by omega)
  have h11 := hv 1 1 le_rfl le_rfl
  unfold mixture
  split_ifs with hb hc hrw
  · exact h00
  · exact lroundTo_pair_bounds h00 h01 hs hrx hry (hx hc) (by ring)
  · exact lroundTo_pair_bounds h00 h10 hs hry hrx (hy hrw) (by ring)
  · have hl := mix_bounds (cast_bounds h00) (cast_bounds h01) hry
    have hr := mix_bounds (cast_bounds h10) (cast_bounds h11) hry
    have hm := mix_bounds hl hr hrx
    have hsm : (v 0 0 * (1 - ry) + v 0 1 * ry) * (1 - rx) + (v 1 0 * (1 - ry) + v 1 1 * ry) * rx =
        v 0 0 * (1 - rx - ry + rx * ry) + v 1 0 * (rx - rx * ry) + v 0 1 * (ry - rx * ry) + v 1 1 * rx * ry := by
      ring
    rw [hsm] at hm
    have hlo : (0 : ℚ) ≤ lo := Nat.cast_nonneg lo
    exact lroundTo_bounds (hlo.trans hm.1) (by linarith [hm.1]) hm.2 hs

variable {dx dy : ℕ}

theorem mixture_corner (hdx : dx ≤ 1) (hdy : dy ≤ 1)
    (hs : v dx dy ≤ bps.fullScale) : mixture bps v dx dy = v dx dy := by
  have hr : lroundTo bps (v dx dy) = v dx dy := by
    have hb := lroundTo_bounds (Nat.cast_nonneg (v dx dy)) (by linarith : ((v dx dy : ℕ) : ℚ) - 1 / 2 ≤ v dx dy)
      le_rfl hs
    omega
  obtain rfl | rfl : dx = 0 ∨ dx = 1 := by omega
  all_goals
    obtain rfl | rfl : dy = 0 ∨ dy = 1 := by omega
    all_goals norm_num [mixture, threshold, hr]

theorem exists_sample_of_interpolateTo {sample : ℤ → ℤ → Except ScaleError ℕ} {rx ry : ℚ} {a : ℕ}
    (h : interpolateTo bps sample rx ry = .ok a) (ha : a ≠ 0) :
    ∃ dx dy : ℕ, dx ≤ 1 ∧ dy ≤ 1 ∧ ∃ w, w ≠ 0 ∧ sample dx dy = .ok w := by
  by_contra hno
  push Not at hno
  have h00 : ∀ w, sample 0 0 = .ok w → w = 0 := fun w hw => by_contra fun hne =>
    hno 0 0 (by omega) (by omega) w hne hw
  have h01 : ∀ w, sample 0 1 = .ok w → w = 0 := fun w hw => by_contra fun hne =>
    hno 0 1 (by omega) le_rfl w hne hw
  have h10 : ∀ w, sample 1 0 = .ok w → w = 0 := fun w hw => by_contra fun hne =>
    hno 1 0 le_rfl (by omega) w hne hw
  have h11 : ∀ w, sample 1 1 = .ok w → w = 0 := fun w hw => by_contra fun hne =>
    hno 1 1 le_rfl le_rfl w hne hw
  have hz : lroundTo bps 0 = 0 := by
    rw [lroundTo, ← Nat.cast_zero, halfAway_natCast]
    simp
  unfold interpolateTo at h
  split_ifs at h
  · exact ha (h00 a h)
  all_goals simp only [bind_eq_ok] at h
  · obtain ⟨u, hu, w, hw, hr⟩ := h
    cases h00 u hu
    cases h01 w hw
    cases hr
    simp [hz] at ha
  · obtain ⟨u, hu, w, hw, hr⟩ := h
    cases h00 u hu
    cases h10 w hw
    cases hr
    simp [hz] at ha
  · obtain ⟨u, hu, w, hw, u', hu', w', hw', hr⟩ := h
    cases h00 u hu
    cases h10 w hw
    cases h01 u' hu'
    cases h11 w' hw'
    cases hr
    simp [hz] at ha

/-! ### Fractions -/

/-- The pixel before a position, not the last. -/
def pixelBefore (n nn i : ℕ) : ℕ := min (i * (n - 1) / (nn - 1)) (n - 2)

/-- **A denominator of at most 100.** -/
def CoarseSteps (n nn : ℕ) : Prop := (nn - 1) / Nat.gcd (n - 1) (nn - 1) ≤ 100

instance (n nn : ℕ) : Decidable (CoarseSteps n nn) := inferInstanceAs (Decidable (_ ≤ _))

/-- The way from the pixel before a position. -/
def way (n nn i : ℕ) : ℚ := clampUnit (mediumLut n nn i - clampIndex n (mediumLut n nn i))

variable {n nn : ℕ}

section
variable {p q i m : ℕ}

theorem gcd_dvd_remainder (p q i : ℕ) : Nat.gcd p q ∣ i * p % q :=
  (Nat.dvd_mod_iff (Nat.gcd_dvd_right p q)).mpr ((Nat.gcd_dvd_left p q).mul_left i)

theorem exists_remainder {k : ℕ} (hk : 0 < k) (hlt : k * Nat.gcd p q < q) :
    ∃ i < q, i * p % q = k * Nat.gcd p q := by
  have hq : 0 < q := Nat.zero_lt_of_lt hlt
  obtain ⟨j, -, hj⟩ := Nat.exists_mul_mod_eq_gcd ((Nat.le_mul_of_pos_left _ hk).trans_lt hlt)
  refine ⟨k * j % q, Nat.mod_lt _ hq, ?_⟩
  rw [Nat.mod_mul_mod, Nat.mul_assoc, Nat.mul_comm j p, ← Nat.mul_mod_mod, hj, Nat.mod_eq_of_lt hlt]

theorem remainders_iff (hq : 0 < q) (hm : 101 ≤ m) :
    (∀ i < q, 100 * (i * p % q) < q → 2 * m * (i * p % q) ≤ q) ↔ q / Nat.gcd p q ≤ 100 := by
  have hg : 0 < Nat.gcd p q := Nat.gcd_pos_of_pos_right p hq
  obtain ⟨d, hd⟩ := Nat.gcd_dvd_right p q
  have hdn : q / Nat.gcd p q = d := Nat.div_eq_of_eq_mul_right hg hd
  rw [hdn]
  set g := Nat.gcd p q with hgd
  constructor
  · intro h
    by_contra hlr
    -- the largest multiple below a hundredth
    obtain ⟨k, hk⟩ : ∃ k, k = (d - 1) / 100 := ⟨_, rfl⟩
    have hp : 0 < k := by omega
    have hl : 100 * (k * g) < q := by
      calc 100 * (k * g) = 100 * k * g := by ring
        _ < d * g := Nat.mul_lt_mul_of_pos_right (by omega) hg
        _ = q := by rw [hd, Nat.mul_comm]
    obtain ⟨i, hi, hr⟩ := exists_remainder hp (show k * Nat.gcd p q < q by rw [← hgd]; omega)
    rw [← hgd] at hr
    have hs := h i hi (by rwa [hr])
    rw [hr] at hs
    have hle : 2 * m * k ≤ d := by
      refine Nat.le_of_mul_le_mul_left ?_ hg
      calc g * (2 * m * k) = 2 * m * (k * g) := by ring
        _ ≤ q := hs
        _ = g * d := hd
    have hmn : 202 * k ≤ 2 * m * k := Nat.mul_le_mul_right k (by omega)
    omega
  · intro hd100 i _ hl
    obtain ⟨c, hc⟩ := gcd_dvd_remainder p q i
    rw [← hgd] at hc
    rcases Nat.eq_zero_or_pos c with rfl | hp
    · rw [hc, Nat.mul_zero, Nat.mul_zero]
      exact Nat.zero_le q
    · have hle : g * d ≤ g * (100 * c) := Nat.mul_le_mul_left g (by omega)
      have hml : g * (100 * c) = 100 * (g * c) := by ring
      rw [hc] at hl
      omega

theorem trunc_mediumLut (n nn i : ℕ) : trunc (mediumLut n nn i) = (i * (n - 1) % 2 ^ 64 / (nn - 1) : ℕ) := by
  rw [mediumLut, trunc, if_pos (by positivity), Rat.floor_natCast_div_natCast]
  norm_cast

theorem clampIndex_mediumLut (hn : 2 ≤ n) (nn i : ℕ) :
    clampIndex n (mediumLut n nn i) = min (i * (n - 1) % 2 ^ 64 / (nn - 1)) (n - 2) := by
  rw [clampIndex, trunc_mediumLut, Nat.min_def]
  generalize i * (n - 1) % 2 ^ 64 / (nn - 1) = whole
  split_ifs <;> omega

theorem clampIndex_eq_pixelBefore (hn : 2 ≤ n) (hf : TableFits n nn) (hi : i < nn) :
    clampIndex n (mediumLut n nn i) = pixelBefore n nn i := by
  have hlt : i * (n - 1) < 2 ^ 64 := (Nat.mul_le_mul_right _ (by omega)).trans_lt hf
  rw [clampIndex_mediumLut hn, Nat.mod_eq_of_lt hlt, pixelBefore]

theorem way_bounds (n nn i : ℕ) : 0 ≤ way n nn i ∧ way n nn i ≤ 1 :=
  ⟨clampUnit_nonneg _, max_le zero_le_one (min_le_right _ _)⟩

theorem way_of_lt (hp : 0 < p) (hf : TableFits (p + 1) (q + 1)) (hi : i < q) : way (p + 1) (q + 1) i = (i * p % q : ℕ) / (q : ℚ) := by
  have hq : (0 : ℚ) < q := Nat.cast_pos.mpr (by omega)
  have hb : pixelBefore (p + 1) (q + 1) i = i * p / q := by
    have hlt : i * p / q < p := Nat.div_lt_of_lt_mul (Nat.mul_lt_mul_of_pos_right hi hp)
    rw [pixelBefore, Nat.add_sub_cancel, Nat.add_sub_cancel]
    omega
  have hs : ((i * p : ℕ) : ℚ) = q * (i * p / q : ℕ) + (i * p % q : ℕ) := by
    exact_mod_cast (Nat.div_add_mod (i * p) q).symm
  have hr : ((i * p % q : ℕ) : ℚ) / q ≤ 1 := by
    rw [div_le_one hq]
    exact_mod_cast (Nat.mod_lt _ (by omega)).le
  rw [way, clampIndex_eq_pixelBefore (by omega) hf (by omega), hb, mediumLut_of_fits hf (by omega),
    Nat.add_sub_cancel, Nat.add_sub_cancel, hs, add_div, mul_div_cancel_left₀ _ hq.ne', add_sub_cancel_left, clampUnit, min_eq_left hr,
    max_eq_right (by positivity)]

theorem way_last (hn : 2 ≤ n) (hnn : 2 ≤ nn) (hf : TableFits n nn) : way n nn (nn - 1) = 1 := by
  have hb : pixelBefore n nn (nn - 1) = n - 2 := by
    rw [pixelBefore, Nat.mul_div_cancel_left _ (by omega)]
    omega
  have hc : ((n - 1 : ℕ) : ℚ) - (n - 2 : ℕ) = 1 := by
    rw [Nat.cast_sub (by omega), Nat.cast_sub (by omega)]
    push_cast
    ring
  rw [way, clampIndex_eq_pixelBefore hn hf (by omega), hb, mediumLut_last hf hnn, hc]
  norm_num [clampUnit]

theorem way_zero (hn : 2 ≤ n) (hnn : 2 ≤ nn) (hf : TableFits n nn) : way n nn 0 = 0 := by
  obtain ⟨p, rfl⟩ := Nat.exists_eq_add_of_le' (show 1 ≤ n by omega)
  obtain ⟨q, rfl⟩ := Nat.exists_eq_add_of_le' (show 1 ≤ nn by omega)
  rw [way_of_lt (by omega) hf (by omega), Nat.zero_mul, Nat.zero_mod, Nat.cast_zero, zero_div]

theorem not_lt_threshold_one : ¬ (1 : ℚ) < threshold := by norm_num [threshold]

theorem unseen_fraction_iff {r : ℕ} (hq : 0 < q) :
    Unseen bps ((r : ℚ) / q) ↔ (100 * r < q → 2 * bps.fullScale * r ≤ q) := by
  have hp : (0 : ℚ) < q := Nat.cast_pos.mpr hq
  have hn : (r : ℚ) / q < threshold ↔ 100 * r < q := by
    rw [threshold, div_lt_div_iff₀ hp (by norm_num), one_mul, mul_comm]
    exact_mod_cast Iff.rfl
  have hs : (r : ℚ) / q * bps.fullScale ≤ 1 / 2 ↔ 2 * bps.fullScale * r ≤ q := by
    rw [div_mul_eq_mul_div, div_le_div_iff₀ hp two_pos, one_mul, mul_comm, ← mul_assoc, mul_right_comm]
    exact_mod_cast Iff.rfl
  rw [Unseen, hn, hs]

end

theorem unseen_iff (bps : Depth) (hn : 2 ≤ n) (hnn : 2 ≤ nn) (hf : TableFits n nn) :
    (∀ i < nn, Unseen bps (way n nn i)) ↔ CoarseSteps n nn := by
  have hl : Unseen bps (way n nn (nn - 1)) := by
    intro hnr
    rw [way_last hn hnn hf] at hnr
    exact absurd hnr not_lt_threshold_one
  obtain ⟨p, rfl⟩ := Nat.exists_eq_add_of_le' (show 1 ≤ n by omega)
  obtain ⟨q, rfl⟩ := Nat.exists_eq_add_of_le' (show 1 ≤ nn by omega)
  have hq : 0 < q := by omega
  have hs : 101 ≤ bps.fullScale := by cases bps <;> decide
  have hw : ∀ i < q, Unseen bps (way (p + 1) (q + 1) i) ↔
      (100 * (i * p % q) < q → 2 * bps.fullScale * (i * p % q) ≤ q) := by
    intro i hi
    rw [way_of_lt (by omega) hf hi, unseen_fraction_iff hq]
  rw [CoarseSteps, Nat.add_sub_cancel, Nat.add_sub_cancel, ← remainders_iff hq hs]
  constructor
  · intro h i hi
    exact (hw i hi).mp (h i (by omega))
  · intro h i hi
    rcases Nat.lt_or_ge i q with hlt | hge
    · exact (hw i hlt).mpr (h i hlt)
    · obtain rfl : i = q := by omega
      exact hl

theorem way_end {d : ℕ} (hn : 2 ≤ n) (hnn : 2 ≤ nn) (hf : TableFits n nn) (hd : d ≤ 1) :
    way n nn (d * (nn - 1)) = d := by
  obtain rfl | rfl : d = 0 ∨ d = 1 := by omega
  · rw [Nat.zero_mul, way_zero hn hnn hf, Nat.cast_zero]
  · rw [Nat.one_mul, way_last hn hnn hf, Nat.cast_one]

theorem pixelBefore_end {d : ℕ} (hn : 2 ≤ n) (hnn : 2 ≤ nn) (hd : d ≤ 1) :
    pixelBefore n nn (d * (nn - 1)) + d = d * (n - 1) := by
  obtain rfl | rfl : d = 0 ∨ d = 1 := by omega
  · simp [pixelBefore]
  · rw [pixelBefore, Nat.one_mul, Nat.mul_div_cancel_left _ (by omega)]
    omega

theorem pixelBefore_lt (hn : 2 ≤ n) (nn i : ℕ) : pixelBefore n nn i + 1 < n := by
  unfold pixelBefore
  omega

namespace SipiImage

variable {img : SipiImage} {nnx nny : ℕ}

/-- The four samples around a position. -/
def around (img : SipiImage) (nnx nny i j k dx dy : ℕ) : ℕ :=
  img.pixels.get (index img.nx img.nc (pixelBefore img.nx nnx i + dx) (pixelBefore img.ny nny j + dy) k)

theorem scaleMedium_mixture (hfl : img.Full) (hnc : 0 < img.nc) (hs : ¬ Degenerate img nnx nny)
    (hc : img.nx * img.ny * img.nc ≤ 2 ^ 31) (hfx : TableFits img.nx nnx) (hfy : TableFits img.ny nny) :
    ∃ out, img.scaleMedium nnx nny = .ok (true, img.withPixels nnx nny out) ∧ out.size = nnx * nny * img.nc ∧
      ∀ i < nnx, ∀ j < nny, ∀ k < img.nc, out.get (index nnx img.nc i j k) =
        mixture img.bps (img.around nnx nny i j k) (way img.nx nnx i) (way img.ny nny j) := by
  obtain ⟨hn, hnn, hnx, hny⟩ := two_le_of_not_degenerate hs
  obtain ⟨hN', hny', hn'⟩ := sides_le_count hnx hny hnc
  have he : Ends (fill ScaleError.overrun 0 nnx nny img.nc fun i j k =>
      bilinnInt img.bps img.pixels (asInt img.nx) (asInt img.ny) (mediumLut img.nx nnx i) (mediumLut img.ny nny j)
        (asInt k) (asInt img.nc))
      (Filled nnx nny img.nc (fun i j k v =>
        v = mixture img.bps (img.around nnx nny i j k) (way img.nx nnx i) (way img.ny nny j))
        (nnx * nny * img.nc)) fun _ => False := by
    refine fill_ends fun i hi j hj k hk => ?_
    have hx := mediumLut_bounds (n := img.nx) hn hi
    have hy := mediumLut_bounds (n := img.ny) hnn hj
    have ht := trunc_bounds hx.1 hx.2
    have htr := trunc_bounds hy.1 hy.2
    have hv : interpolateTo img.bps (fun dx dy =>
          position img.nx img.nc (clampIndex img.nx (mediumLut img.nx nnx i) + dx)
            (clampIndex img.ny (mediumLut img.ny nny j) + dy) k >>= readAt img.pixels)
        (way img.nx nnx i) (way img.ny nny j) =
        .ok (mixture img.bps (img.around nnx nny i j k) (way img.nx nnx i) (way img.ny nny j)) := by
      refine interpolateTo_eq_mixture img.bps _ _ fun dx dy hdx hdy => ?_
      rw [readAt_position hfl hk hc (clampIndex_lt hnx _) (clampIndex_lt hny _) hdx hdy, around,
        clampIndex_eq_pixelBefore hnx hfx hi, clampIndex_eq_pixelBefore hny hfy hj]
    rw [asInt_of_lt (by omega), asInt_of_lt (by omega), asInt_of_lt (by omega), asInt_of_lt (by omega),
      bilinnInt_eq hnx hny ⟨by omega, by omega⟩ ⟨by omega, by omega⟩, ← way, ← way, hv]
    exact rfl
  obtain ⟨out, ho, hf⟩ := he.exists_ok
  refine ⟨out, ?_, hf.size, fun i hi j hj k hk => hf.get hi hj hk⟩
  rw [scaleMedium, scaleWith, if_neg hs, ho]
  rfl

/-- The smallest of the four. -/
def lowest (img : SipiImage) (nnx nny i j k : ℕ) : ℕ :=
  min (min (img.around nnx nny i j k 0 0) (img.around nnx nny i j k 1 0))
    (min (img.around nnx nny i j k 0 1) (img.around nnx nny i j k 1 1))

/-- The largest of the four. -/
def highest (img : SipiImage) (nnx nny i j k : ℕ) : ℕ :=
  max (max (img.around nnx nny i j k 0 0) (img.around nnx nny i j k 1 0))
    (max (img.around nnx nny i j k 0 1) (img.around nnx nny i j k 1 1))

theorem around_bounds (img : SipiImage) (nnx nny i j k : ℕ) (hdx : dx ≤ 1) (hdy : dy ≤ 1) :
    img.lowest nnx nny i j k ≤ img.around nnx nny i j k dx dy ∧
      img.around nnx nny i j k dx dy ≤ img.highest nnx nny i j k := by
  obtain rfl | rfl : dx = 0 ∨ dx = 1 := by omega
  all_goals
    obtain rfl | rfl : dy = 0 ∨ dy = 1 := by omega
    all_goals
      unfold lowest highest
      omega

/-- **An average**: each sample lies between four, a flat image stays flat, corners are kept. -/
structure IsAverage (img out : SipiImage) (nnx nny : ℕ) : Prop where
  between : ∀ i < nnx, ∀ j < nny, ∀ k < img.nc, img.lowest nnx nny i j k ≤ out.pixels.get (index nnx img.nc i j k) ∧
    out.pixels.get (index nnx img.nc i j k) ≤ img.highest nnx nny i j k
  flat : ∀ v, (∀ p < img.pixels.size, img.pixels.get p = v) → ∀ p < out.pixels.size, out.pixels.get p = v
  corner : ∀ dx ≤ 1, ∀ dy ≤ 1, ∀ k < img.nc,
    out.pixels.get (index nnx img.nc (dx * (nnx - 1)) (dy * (nny - 1)) k) =
      img.pixels.get (index img.nx img.nc (dx * (img.nx - 1)) (dy * (img.ny - 1)) k)

/-- **Interpolation is an average** at its target. -/
def InterpolatesBetween (img : SipiImage) (nnx nny : ℕ) : Prop :=
  ∃ out, img.scaleMedium nnx nny = .ok (true, out) ∧ out.nx = nnx ∧ out.ny = nny ∧ out.nc = img.nc ∧
    out.bps = img.bps ∧ out.Full ∧ IsAverage img out nnx nny

theorem around_lt (hf : img.Full) (hnx : 2 ≤ img.nx) (hny : 2 ≤ img.ny) (i j : ℕ) {k : ℕ} (hk : k < img.nc)
    (hdx : dx ≤ 1) (hdy : dy ≤ 1) :
    index img.nx img.nc (pixelBefore img.nx nnx i + dx) (pixelBefore img.ny nny j + dy) k < img.pixels.size := by
  have hx := pixelBefore_lt hnx nnx i
  have hy := pixelBefore_lt hny nny j
  exact hf.sample_lt (by omega) (by omega) hk

theorem interpolatesBetween_of_coarse (hf : img.Full) (hs : img.InScale) (hnc : 0 < img.nc)
    (hsd : ¬ Degenerate img nnx nny) (hc : img.nx * img.ny * img.nc ≤ 2 ^ 31) (hfx : TableFits img.nx nnx)
    (hfy : TableFits img.ny nny) (hx : CoarseSteps img.nx nnx) (hy : CoarseSteps img.ny nny) :
    img.InterpolatesBetween nnx nny := by
  obtain ⟨hn, hnn, hnx, hny⟩ := two_le_of_not_degenerate hsd
  obtain ⟨out, ho, hsz, hvl⟩ := scaleMedium_mixture hf hnc hsd hc hfx hfy
  have hh : ∀ i j, ∀ k < img.nc, img.highest nnx nny i j k ≤ img.bps.fullScale := by
    intro i j k hk
    have hle : ∀ dx dy : ℕ, dx ≤ 1 → dy ≤ 1 → img.around nnx nny i j k dx dy ≤ img.bps.fullScale :=
      fun dx dy hdx hdy => hs _ (around_lt hf hnx hny i j hk hdx hdy)
    exact max_le (max_le (hle 0 0 (by omega) (by omega)) (hle 1 0 le_rfl (by omega)))
      (max_le (hle 0 1 (by omega) le_rfl) (hle 1 1 le_rfl le_rfl))
  have hb : ∀ i < nnx, ∀ j < nny, ∀ k < img.nc,
      img.lowest nnx nny i j k ≤ out.get (index nnx img.nc i j k) ∧
        out.get (index nnx img.nc i j k) ≤ img.highest nnx nny i j k := by
    intro i hi j hj k hk
    rw [hvl i hi j hj k hk]
    exact mixture_bounds (fun dx dy => img.around_bounds nnx nny i j k) (hh i j k hk) (way_bounds _ _ _)
      (way_bounds _ _ _) ((unseen_iff img.bps hnx hn hfx).mpr hx i hi)
      ((unseen_iff img.bps hny hnn hfy).mpr hy j hj)
  refine ⟨_, ho, rfl, rfl, rfl, rfl, hsz, hb, fun v hfl p hp => ?_, fun dx hdx dy hdy k hk => ?_⟩
  · obtain ⟨i, hi, j, hj, k, hk, rfl⟩ := exists_index (show p < nnx * nny * img.nc by rwa [← hsz])
    have ha : ∀ dx dy : ℕ, dx ≤ 1 → dy ≤ 1 → img.around nnx nny i j k dx dy = v :=
      fun dx dy hdx hdy => hfl _ (around_lt hf hnx hny i j hk hdx hdy)
    have hv := hb i hi j hj k hk
    simp only [lowest, highest, ha 0 0 (by omega) (by omega), ha 1 0 le_rfl (by omega),
      ha 0 1 (by omega) le_rfl, ha 1 1 le_rfl le_rfl, min_self, max_self] at hv
    exact le_antisymm hv.2 hv.1
  · have hi : dx * (nnx - 1) < nnx := by
      have hle := Nat.mul_le_mul_right (nnx - 1) hdx
      omega
    have hj : dy * (nny - 1) < nny := by
      have hle := Nat.mul_le_mul_right (nny - 1) hdy
      omega
    have hle : img.around nnx nny (dx * (nnx - 1)) (dy * (nny - 1)) k dx dy ≤ img.bps.fullScale :=
      hs _ (around_lt hf hnx hny _ _ hk hdx hdy)
    have hpl := hvl _ hi _ hj k hk
    rw [way_end hnx hn hfx hdx, way_end hny hnn hfy hdy, mixture_corner hdx hdy hle, around,
      pixelBefore_end hnx hn hdx, pixelBefore_end hny hnn hdy] at hpl
    exact hpl

/-! ### When interpolation is an average -/

/-- An image with all of this given. -/
def withSamples (nx ny nc : ℕ) (bps : Depth) (sample : ℕ → ℕ) : SipiImage :=
  ⟨nx, ny, nc, bps, .minisblack, [], .topLeft, none, ⟨nx * ny * nc, sample⟩⟩

section
variable {nx ny nc : ℕ} {bps : Depth}

theorem full_withSamples (nx ny nc : ℕ) (bps : Depth) (sample : ℕ → ℕ) : (withSamples nx ny nc bps sample).Full := rfl

theorem not_degenerate_withSamples (hnx : 2 ≤ nx) (hny : 2 ≤ ny) (hn : 2 ≤ nnx) (hnn : 2 ≤ nny) (sample : ℕ → ℕ) :
    ¬ Degenerate (withSamples nx ny nc bps sample) nnx nny := by
  show ¬ (nnx ≤ 1 ∨ nny ≤ 1 ∨ nx ≤ 1 ∨ ny ≤ 1)
  omega

/-- Black, but for the last sample. -/
def lastSample (nx ny nc : ℕ) (p : ℕ) : ℕ := if p = nx * ny * nc - 1 then 1 else 0

theorem index_last (hnx : 0 < nx) (hny : 0 < ny) (hnc : 0 < nc) :
    index nx nc (nx - 1) (ny - 1) (nc - 1) = nx * ny * nc - 1 := by
  obtain ⟨a, rfl⟩ := Nat.exists_eq_add_of_le' hnx
  obtain ⟨b, rfl⟩ := Nat.exists_eq_add_of_le' hny
  obtain ⟨c, rfl⟩ := Nat.exists_eq_add_of_le' hnc
  have hal : (a + 1) * (b + 1) * (c + 1) = (c + 1) * (b * (a + 1) + a) + c + 1 := by ring
  rw [index, hal]
  rfl

theorem readAt_lastSample {p : ℤ} {v : ℕ} (h : readAt ⟨nx * ny * nc, lastSample nx ny nc⟩ p = .ok v) (hv : v ≠ 0) :
    p.toNat = nx * ny * nc - 1 := by
  unfold readAt Buffer.fetch at h
  split_ifs at h
  by_contra hne
  exact hv ((Except.ok.inj h).symm.trans (if_neg hne))

theorem reached_of_corner (hnx : 2 ≤ nx) (hny : 2 ≤ ny) (hnc : 0 < nc) {x y : ℚ} (hx : 0 ≤ x ∧ x ≤ (nx - 1 : ℕ))
    (hy : 0 ≤ y ∧ y ≤ (ny - 1 : ℕ)) {v : ℕ} (hv : v ≠ 0)
    (h : bilinnInt bps ⟨nx * ny * nc, lastSample nx ny nc⟩ (asInt nx) (asInt ny) x y (asInt (nc - 1)) (asInt nc) =
      .ok v) :
    nx * ny * nc ≤ 2 ^ 31 ∧ clampIndex nx x = nx - 2 ∧ clampIndex ny y = ny - 2 := by
  obtain ⟨hN', hny', hn'⟩ := sides_le_count hnx hny hnc
  have hlt : nc - 1 < nx * ny * nc - 1 := by omega
  have hc : nx * ny * nc ≤ 2 ^ 31 := by
    rw [bilinnInt] at h
    split_ifs at h with hsm
    · -- the channel of the first pixel is not the last sample
      have hr := readAt_lastSample h hv
      unfold asInt at hr
      omega
    · simp only [bind_eq_ok] at h
      obtain ⟨ix, -, iy, -, h⟩ := h
      obtain ⟨dx, dy, -, -, w, hw, hs⟩ := exists_sample_of_interpolateTo h hv
      obtain ⟨p, hp, hr⟩ := bind_eq_ok.mp hs
      have hl := readAt_lastSample hr hw
      obtain ⟨-, -, -, hb, rfl⟩ := position_eq_ok_iff.mp hp
      have := hb.2
      omega
  have ht := trunc_bounds hx.1 hx.2
  have htr := trunc_bounds hy.1 hy.2
  rw [asInt_of_lt (by omega), asInt_of_lt (by omega), asInt_of_lt (by omega), asInt_of_lt (by omega),
    bilinnInt_eq hnx hny ⟨by omega, by omega⟩ ⟨by omega, by omega⟩] at h
  obtain ⟨dx, dy, hdx, hdy, w, hw, hs⟩ := exists_sample_of_interpolateTo h hv
  have hix := clampIndex_lt hnx x
  have hiy := clampIndex_lt hny y
  rw [readAt_position rfl (by omega) hc hix hiy hdx hdy] at hs
  have hl : index nx nc (clampIndex nx x + dx) (clampIndex ny y + dy) (nc - 1) =
      index nx nc (nx - 1) (ny - 1) (nc - 1) := by
    rw [index_last (by omega) (by omega) hnc]
    by_contra hne
    exact hw ((Except.ok.inj hs).symm.trans (if_neg hne))
  obtain ⟨hex, hey, -⟩ := index_inj (by omega) (by omega) (by omega) (by omega) hl
  exact ⟨hc, by omega, by omega⟩

theorem clampIndex_of_wrapped (hn : 2 ≤ n) (hnn : 2 ≤ nn) (hs : nn < 2 ^ 64) (hw : ¬ TableFits n nn) :
    clampIndex n (mediumLut n nn (nn - 1)) ≠ n - 2 := by
  have hge : 2 ^ 64 ≤ (nn - 1) * (n - 1) := not_lt.mp hw
  have hmul : (nn - 1) * (n - 2) = (nn - 1) * (n - 1) - (nn - 1) := by
    rw [show n - 2 = n - 1 - 1 by omega, Nat.mul_sub_one]
  have hlt : (nn - 1) * (n - 1) % 2 ^ 64 / (nn - 1) < n - 2 := Nat.div_lt_of_lt_mul (by omega)
  rw [clampIndex_mediumLut hn]
  omega

theorem fits_of_corner (hnx : 2 ≤ nx) (hny : 2 ≤ ny) (hnc : 0 < nc) (hn : 2 ≤ nnx) (hnn : 2 ≤ nny)
    (hsx : nnx < 2 ^ 64) (hsy : nny < 2 ^ 64)
    (h : (withSamples nx ny nc bps (lastSample nx ny nc)).InterpolatesBetween nnx nny) :
    nx * ny * nc ≤ 2 ^ 31 ∧ TableFits nx nnx ∧ TableFits ny nny := by
  obtain ⟨out, ho, -, -, -, -, -, ha⟩ := h
  rw [scaleMedium, scaleWith, if_neg (not_degenerate_withSamples hnx hny hn hnn _)] at ho
  obtain ⟨pixels, hp, heq⟩ := map_eq_ok.mp ho
  obtain rfl : withPixels _ nnx nny pixels = out := congrArg Prod.snd heq
  have hk : nc - 1 < nc := by omega
  have hr := value_of_fill hp (show nnx - 1 < nnx by omega) (show nny - 1 < nny by omega) hk
  have hc := ha.corner 1 le_rfl 1 le_rfl (nc - 1) hk
  rw [Nat.one_mul, Nat.one_mul, Nat.one_mul, Nat.one_mul] at hc
  have hl : lastSample nx ny nc (index nx nc (nx - 1) (ny - 1) (nc - 1)) = 1 :=
    if_pos (index_last (by omega) (by omega) hnc)
  have hone : pixels.get (index nnx nc (nnx - 1) (nny - 1) (nc - 1)) ≠ 0 := by
    have he : pixels.get (index nnx nc (nnx - 1) (nny - 1) (nc - 1)) = 1 := hc.trans hl
    omega
  obtain ⟨hcn, hex, hey⟩ := reached_of_corner hnx hny hnc (mediumLut_bounds hn (by omega))
    (mediumLut_bounds hnn (by omega)) hone hr
  refine ⟨hcn, ?_, ?_⟩
  · by_contra hw
    exact clampIndex_of_wrapped hnx hn hsx hw hex
  · by_contra hw
    exact clampIndex_of_wrapped hny hnn hsy hw hey

theorem unseen_of_white {r : ℚ} (hr : 0 ≤ r ∧ r ≤ 1)
    (h : lroundTo bps ((1 - r) * bps.fullScale) = bps.fullScale) : r * bps.fullScale ≤ 1 / 2 := by
  have hn : 0 ≤ (1 - r) * (bps.fullScale : ℚ) := mul_nonneg (by linarith [hr.2]) (Nat.cast_nonneg _)
  have hle : (1 - r) * (bps.fullScale : ℚ) ≤ bps.fullScale := by
    have hl : 0 ≤ r * (bps.fullScale : ℚ) := mul_nonneg hr.1 (Nat.cast_nonneg _)
    linarith
  have hrn := halfAway_le_add hn
  have hh := (halfAway_bounds (a := 0) hn (by push_cast; linarith) hle).2
  rw [lroundTo, Int.emod_eq_of_lt (halfAway_nonneg hn) (by omega)] at h
  have hv : (halfAway ((1 - r) * (bps.fullScale : ℚ)) : ℚ) = bps.fullScale := by
    have hnt : halfAway ((1 - r) * (bps.fullScale : ℚ)) = bps.fullScale := by
      have := halfAway_nonneg hn
      omega
    exact_mod_cast congrArg (Int.cast : ℤ → ℚ) hnt
  linarith

theorem coarse_of_white (hnx : 2 ≤ nx) (hny : 2 ≤ ny) (hnc : 0 < nc) (hnn : 2 ≤ nnx) (hN : 2 ≤ nny)
    (hc : nx * ny * nc ≤ 2 ^ 31) (hfx : TableFits nx nnx) (hfy : TableFits ny nny)
    (h : (withSamples nx ny nc bps fun _ => bps.fullScale).InterpolatesBetween nnx nny) :
    CoarseSteps nx nnx ∧ CoarseSteps ny nny := by
  obtain ⟨pixels, hp, hs, hv⟩ := scaleMedium_mixture (full_withSamples nx ny nc bps fun _ => bps.fullScale)
    hnc (not_degenerate_withSamples hnx hny hnn hN _) hc hfx hfy
  obtain ⟨out, ho, -, -, -, -, -, ha⟩ := h
  obtain rfl : withPixels _ nnx nny pixels = out := congrArg Prod.snd (Except.ok.inj (hp.symm.trans ho))
  -- every sample is white again
  have hw : ∀ i < nnx, ∀ j < nny,
      mixture bps (fun _ _ => bps.fullScale) (way nx nnx i) (way ny nny j) = bps.fullScale := by
    intro i hi j hj
    have hlt : index nnx nc i j 0 < pixels.size := by
      rw [hs]
      exact index_lt hi hj hnc
    exact (hv i hi j hj 0 hnc).symm.trans (ha.flat bps.fullScale (fun _ _ => rfl) _ hlt)
  rw [← unseen_iff bps hnx hnn hfx, ← unseen_iff bps hny hN hfy]
  constructor
  · intro i hi hn
    have hl := hw i hi (nny - 1) (by omega)
    rw [way_last hny hN hfy, mixture, if_neg (fun h => not_lt_threshold_one h.2), if_pos hn] at hl
    refine unseen_of_white (way_bounds nx nnx i) ?_
    convert hl using 2
    ring
  · intro j hj hn
    have hl := hw (nnx - 1) (by omega) j hj
    rw [way_last hnx hnn hfx, mixture, if_neg (fun h => not_lt_threshold_one h.1), if_neg not_lt_threshold_one,
      if_pos hn] at hl
    refine unseen_of_white (way_bounds ny nny j) ?_
    convert hl using 2
    ring

end

/-- **When interpolation is an average**, for images with the given sides, channels and bits: the samples can be
counted, no product of the tables wraps around, and the positions of the columns and of the rows have a denominator
of at most 100. -/
theorem interpolatesBetween_iff (nx ny nc : ℕ) (bps : Depth) (nnx nny : ℕ) (hnx : 2 ≤ nx) (hny : 2 ≤ ny)
    (hnc : 0 < nc) (hnnx : 2 ≤ nnx ∧ nnx < 2 ^ 64) (hnny : 2 ≤ nny ∧ nny < 2 ^ 64) :
    (∀ img : SipiImage, img.nx = nx → img.ny = ny → img.nc = nc → img.bps = bps → img.Full → img.InScale →
      img.InterpolatesBetween nnx nny) ↔
      nx * ny * nc ≤ 2 ^ 31 ∧ (TableFits nx nnx ∧ TableFits ny nny) ∧ CoarseSteps nx nnx ∧ CoarseSteps ny nny := by
  constructor
  · intro h
    have hw := h (withSamples nx ny nc bps fun _ => bps.fullScale) rfl rfl rfl rfl rfl fun _ _ => le_rfl
    have ho : (withSamples nx ny nc bps (lastSample nx ny nc)).InScale := by
      intro p _
      show lastSample nx ny nc p ≤ bps.fullScale
      have hs : 1 ≤ bps.fullScale := by cases bps <;> decide
      unfold lastSample
      split_ifs <;> omega
    have hl := h (withSamples nx ny nc bps (lastSample nx ny nc)) rfl rfl rfl rfl rfl ho
    obtain ⟨hcn, hfx, hfy⟩ := fits_of_corner hnx hny hnc hnnx.1 hnny.1 hnnx.2 hnny.2 hl
    exact ⟨hcn, ⟨hfx, hfy⟩, coarse_of_white hnx hny hnc hnnx.1 hnny.1 hcn hfx hfy hw⟩
  · rintro ⟨hcn, ⟨hfx, hfy⟩, hx, hy⟩ img rfl rfl rfl rfl hf hs
    have hsd : ¬ Degenerate img nnx nny := by unfold Degenerate; omega
    exact interpolatesBetween_of_coarse hf hs hnc hsd hcn hfx hfy hx hy

theorem interpolatesBetween_enlarged : (withSamples 3 2 1 .eight fun p => 40 * p).InterpolatesBetween 101 7 := by
  have hs : (withSamples 3 2 1 .eight fun p => 40 * p).InScale := by
    intro p (hp : p < 6)
    show 40 * p ≤ 255
    omega
  exact (interpolatesBetween_iff 3 2 1 .eight 101 7 (by decide) (by decide) (by decide) (by decide) (by decide)).mpr
    (by decide) _ rfl rfl rfl rfl rfl hs

theorem white_not_flat : ¬ (withSamples 2 2 1 .eight fun _ => 255).InterpolatesBetween 102 2 := by
  intro h
  have hc : CoarseSteps 2 102 := (coarse_of_white (by decide) (by decide) (by decide) (by decide) (by decide)
    (by decide) (by decide) (by decide) h).1
  exact absurd hc (by decide)

end SipiImage

end Sipi.Image
