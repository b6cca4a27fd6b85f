import Sipi.Geometry.Crop

/-!
# A region on a level of a pyramid

`SipiIOTiff::read` decodes a level of a pyramid and cuts the region out of that: `crop_coords` divides pixel
coordinates by the ratio of the level, and percentages are taken of the level.

## Honest scope

Numbers that do not fit the machine integers they are stored in are truncated, each to its own remainder; the
theorem speaks of the remainders.
-/

namespace Sipi.Geometry

open Sipi.Iiif Sipi.Theory

/-- The nearest whole number, from zero on. -/
def nearest (q : ℚ) : ℕ := ⌊q + 1 / 2⌋₊

variable {q : ℚ}

theorem nearest_le (hq : 0 ≤ q) : (nearest q : ℚ) ≤ q + 1 / 2 := Nat.floor_le (by linarith)

theorem lt_nearest (q : ℚ) : q - 1 / 2 < nearest q := by
  have := Nat.lt_floor_add_one (q + 1 / 2)
  unfold nearest
  linarith

theorem nearest_mono {p : ℚ} (h : p ≤ q) : nearest p ≤ nearest q := Nat.floor_le_floor (by linarith)

theorem lround_eq_nearest (hq : 0 ≤ q) : lround q = toLong (nearest q) := by
  rw [lround, nearest, Int.natCast_floor_eq_floor (by linarith)]

variable {k : ℕ}

theorem nearest_le_scaled {z z' : ℚ} (hz : 0 ≤ z) (hk : 0 < k) (h : z ≤ k * z') :
    nearest z ≤ k * nearest z' + k := by
  have hk' : (1 : ℚ) ≤ k := by exact_mod_cast hk
  have hup := nearest_le hz
  have hd := mul_lt_mul_of_pos_left (lt_nearest z') (show (0 : ℚ) < k by linarith)
  have hq : (nearest z : ℚ) ≤ k * nearest z' + k := by
    have hs : (k : ℚ) * (z' - 1 / 2) = k * z' - k / 2 := by ring
    linarith
  exact_mod_cast hq

/-- Within a pixel of the full resolution. -/
def Near (k a b : ℕ) : Prop := |(a : ℚ) - b / k| ≤ 1

theorem near_iff (hk : 0 < k) (a b : ℕ) : Near k a b ↔ b ≤ k * a + k ∧ k * a ≤ b + k := by
  have hp : (0 : ℚ) < k := by exact_mod_cast hk
  have hs : |(a : ℚ) - b / k| * k = |(k * a : ℚ) - b| := by
    rw [← abs_of_pos hp, ← abs_mul, abs_of_pos hp]
    congr 1
    field_simp
  rw [Near, ← mul_le_mul_iff_left₀ hp, hs, one_mul, abs_le]
  constructor
  · rintro ⟨hl, hh⟩
    constructor
    · have : (b : ℚ) ≤ k * a + k := by linarith
      exact_mod_cast this
    · have : (k * a : ℚ) ≤ b + k := by linarith
      exact_mod_cast this
  · rintro ⟨hl, hh⟩
    have hl' : (b : ℚ) ≤ k * a + k := by exact_mod_cast hl
    have hh' : (k * a : ℚ) ≤ b + k := by exact_mod_cast hh
    constructor <;> linarith

/-- An axis on a level stays close to the full one. -/
def AxisStays (k n' x w x' w' : ℕ) : Prop :=
  x' < n' ∧ k * x' ≤ x + k ∧ (k * (n' - x') ≤ w + k ∨ 0 < w' ∧ k * w' ≤ w + k)

theorem cut_le (n x w : ℕ) : cut n x w ≤ n - x := by
  unfold cut
  split <;> omega

variable {w : ℕ}

theorem cut_le_side (n x : ℕ) (hw : 0 < w) : cut n x w ≤ w := by
  unfold cut
  split <;> omega

theorem mul_cut_le_iff (k n x w b : ℕ) : k * cut n x w ≤ b ↔ k * (n - x) ≤ b ∨ 0 < w ∧ k * w ≤ b := by
  unfold cut
  split
  · next hw => simp [hw]
  · next hw =>
    rw [← Nat.mul_min_mul_left, min_le_iff]
    have hp := Nat.pos_of_ne_zero hw
    tauto

variable {n x x' w' : ℕ}

theorem cut_le_mul_cut {n' : ℕ} (hl : n ≤ k * n') (hx' : x' < n') (hc : k * x' ≤ x + k)
    (hle : w' ≤ w) (hs : w ≤ k * w' + k) : cut n x w ≤ k * cut n' x' w' + k := by
  have hr : cut n x w ≤ k * (n' - x') + k := by
    have := cut_le n x w
    rw [Nat.mul_sub]
    omega
  by_cases hw' : w' = 0
  · have hct : cut n' x' w' = n' - x' := if_pos hw'
    rwa [hct]
  · have hct : cut n' x' w' = min w' (n' - x') := if_neg hw'
    rw [hct, ← Nat.mul_min_mul_left]
    have := cut_le_side n x (show 0 < w by omega)
    omega

theorem axis_near_iff (hk : 0 < k) (hc : x ≤ k * x' + k) (hle : w' ≤ w) (hs : w ≤ k * w' + k) :
    x' < n ⌈/⌉ k ∧ Near k x' x ∧ Near k (cut (n ⌈/⌉ k) x' w') (cut n x w) ↔
      AxisStays k (n ⌈/⌉ k) x (cut n x w) x' w' := by
  have hlv : n ≤ k * (n ⌈/⌉ k) := le_mul_ceilDiv n hk
  rw [near_iff hk, near_iff hk, AxisStays, mul_cut_le_iff]
  constructor
  · rintro ⟨hx', ⟨-, hf⟩, -, hl⟩
    exact ⟨hx', hf, hl⟩
  · rintro ⟨hx', hf, hl⟩
    exact ⟨hx', ⟨hc, hf⟩, cut_le_mul_cut hlv hx' hf hle hs, hl⟩

/-! ### A region with numbers -/

/-- A number of a region on a level, rounded. -/
def onLevel (kind : RegionKind) (q : ℚ) (k n : ℕ) : ℕ :=
  if kind = .percents then nearest (q * n / 100) else nearest (q / k)

section
variable {kind : RegionKind} {q : ℚ} {k n : ℕ}

theorem onLevel_le (kind : RegionKind) (n : ℕ) (hq : 0 ≤ q) (hk : 0 < k) :
    onLevel kind q k (n ⌈/⌉ k) ≤ onLevel kind q 1 n := by
  have hk' : (1 : ℚ) ≤ k := by exact_mod_cast hk
  have hl : ((n ⌈/⌉ k : ℕ) : ℚ) ≤ n := by
    exact_mod_cast ceilDiv_le_self n hk
  unfold onLevel
  split
  · apply nearest_mono
    gcongr
  · apply nearest_mono
    rw [Nat.cast_one, div_one]
    exact div_le_self hq hk'

theorem le_mul_onLevel (hq : 0 ≤ q) (hk : 0 < k) : onLevel kind q 1 n ≤ k * onLevel kind q k (n ⌈/⌉ k) + k := by
  have hp : (0 : ℚ) < k := by exact_mod_cast hk
  have hl : (n : ℚ) ≤ k * (n ⌈/⌉ k : ℕ) := by exact_mod_cast le_mul_ceilDiv n hk
  unfold onLevel
  split
  · refine nearest_le_scaled (by positivity) hk ?_
    calc q * n / 100 ≤ q * (k * (n ⌈/⌉ k : ℕ)) / 100 := by gcongr
      _ = k * (q * (n ⌈/⌉ k : ℕ) / 100) := by ring
  · refine nearest_le_scaled (by positivity) hk ?_
    rw [Nat.cast_one, div_one, mul_div_cancel₀ q hp.ne']

end

/-- A negative corner is moved to the edge. -/
def kept (x : ℤ) (w : ℕ) : ℕ × ℕ := if x < 0 then (0, toSize (w + x)) else (x.toNat, w)

variable (outside : ℤ → ℕ → CropError)

theorem cutsTo_kept_iff (hn : 0 < n) {x : ℤ} (hx : x.toNat < 2 ^ 31) (hw : w ≤ 2 ^ 63) (x' w' : ℕ) :
    CutsTo (cropAxis outside n hn x w) x' w' ↔
      (kept x w).1 < n ∧ x' = (kept x w).1 ∧ w' = cut n (kept x w).1 (kept x w).2 := by
  unfold kept cropAxis
  split
  · have hlt := toSize_lt (w + x)
    have hc := clip_eq_cut hn (w := toSize (w + x)) (by omega)
    constructor
    · rintro ⟨l, hl, rfl⟩
      cases hl
      exact ⟨hn, rfl, hc⟩
    · rintro ⟨-, rfl, rfl⟩
      exact ⟨_, rfl, hc⟩
  · split
    · next hin =>
      have hc := clip_eq_cut hin (w := w) (by omega)
      constructor
      · rintro ⟨l, hl, rfl⟩
        cases hl
        exact ⟨hin, rfl, hc⟩
      · rintro ⟨-, rfl, rfl⟩
        exact ⟨_, rfl, hc⟩
    · next ho =>
      refine iff_of_false ?_ fun h => ho h.1
      rintro ⟨l, hl, -⟩
      cases hl

/-- Corner and side, in an `int` and a `size_t`. -/
def stored (X W : ℕ) : ℕ × ℕ := kept (toInt (toLong X)) (toSize (toLong W))

theorem stored_of_lt {X W : ℕ} (hX : X < 2 ^ 31) (hW : W < 2 ^ 63) : stored X W = (X, W) := by
  rw [stored, toLong_of_lt (by omega), toInt_of_lt hX, toLong_of_lt hW, toSize_of_lt (by omega)]
  exact if_neg (by omega)

theorem cutsTo_iff (hn : 0 < n) (X W x w : ℕ) :
    CutsTo (cropAxis outside n hn (toInt (toLong X)) (toSize (toLong W))) x w ↔
      (stored X W).1 < n ∧ x = (stored X W).1 ∧ w = cut n (stored X W).1 (stored X W).2 := by
  have hs : toSize (toLong W) ≤ 2 ^ 63 := by
    rw [toSize_toLong]
    exact min_le_right _ _
  exact cutsTo_kept_iff outside hn (toInt_lt _) hs x w

/-- A region of coordinates or percentages. -/
def Region.Numbered (r : Region) : Prop := r.kind = .coords ∨ r.kind = .percents

variable {r : Region}

theorem uncut_of_numbered (hr : r.Numbered) (hk : 0 < k) (d : Dims) :
    r.uncut k d = ⟨toInt (toLong (onLevel r.kind r.x k d.w)), toInt (toLong (onLevel r.kind r.y k d.h)),
      toSize (toLong (onLevel r.kind r.w k d.w)), toSize (toLong (onLevel r.kind r.h k d.h))⟩ := by
  obtain ⟨hx, hy, hw, hh⟩ := r.nonneg
  unfold Region.uncut onLevel
  rcases hr with hkn | hkn
  · have hd : ∀ {q : ℚ}, 0 ≤ q → lroundDiv q k = toLong (nearest (q / k)) := by
      intro q hq
      rw [lroundDiv_of_ne hk.ne', lround_eq_nearest (by positivity)]
    simp [hkn, hd hx, hd hy, hd hw, hd hh]
  · have hm : ∀ {q : ℚ} (n : ℕ), 0 ≤ q → lround (q * n / 100) = toLong (nearest (q * n / 100)) := by
      intro q n hq
      exact lround_eq_nearest (by positivity)
    simp [hkn, hm _ hx, hm _ hy, hm _ hw, hm _ hh]

/-- The level of an image at a ratio. -/
def Dims.level (d : Dims) (k : ℕ) (hk : 0 < k) : Dims :=
  ⟨d.w ⌈/⌉ k, d.h ⌈/⌉ k, ceilDiv_pos d.w_pos hk, ceilDiv_pos d.h_pos hk⟩

/-- An axis is within a pixel of full resolution. -/
def AxisAgrees (k : ℕ) (axis : Except CropError (ℕ × { len : ℕ // 0 < len })) (x w : ℕ) : Prop :=
  ∃ x' w', CutsTo axis x' w' ∧ Near k x' x ∧ Near k w' w

/-- Each number of the cut is within a pixel. -/
def LevelAgrees (r : Region) (k : ℕ) (hk : 0 < k) (d : Dims) (rect : Rect) : Prop :=
  ∃ rect', cropCoords r k (d.level k hk) = .ok rect' ∧ Near k rect'.x rect.x ∧ Near k rect'.y rect.y ∧
    Near k rect'.dims.w rect.dims.w ∧ Near k rect'.dims.h rect.dims.h

theorem levelAgrees_iff (r : Region) (hk : 0 < k) (d : Dims) (rect : Rect) :
    LevelAgrees r k hk d rect ↔ AxisAgrees k (r.axisX k (d.level k hk)) rect.x rect.dims.w ∧
      AxisAgrees k (r.axisY k (d.level k hk)) rect.y rect.dims.h := by
  constructor
  · rintro ⟨rect', hr, hx, hy, hw, hh⟩
    obtain ⟨hc, hct⟩ := (cropCoords_ok_iff r k _ rect').mp hr
    exact ⟨⟨_, _, hc, hx, hw⟩, ⟨_, _, hct, hy, hh⟩⟩
  · rintro ⟨⟨x', w', ⟨l, hl, rfl⟩, hx, hw⟩, ⟨y', h', ⟨l', hl', rfl⟩, hy, hh⟩⟩
    refine ⟨⟨x', y', l.1, l'.1, l.2, l'.2⟩, ?_, hx, hy, hw, hh⟩
    exact (cropCoords_ok_iff r k _ _).mpr ⟨⟨l, hl, rfl⟩, ⟨l', hl', rfl⟩⟩

/-- Corner and side, as kept, are within a pixel. -/
def AxisWithin (k n' x w : ℕ) (kept : ℕ × ℕ) : Prop :=
  kept.1 < n' ∧ Near k kept.1 x ∧ Near k (cut n' kept.1 kept.2) w

theorem axisAgrees_iff {n' : ℕ} (hn' : 0 < n') (k X W x w : ℕ) :
    AxisAgrees k (cropAxis outside n' hn' (toInt (toLong X)) (toSize (toLong W))) x w ↔
      AxisWithin k n' x w (stored X W) := by
  have hc := cutsTo_iff outside hn' X W
  generalize stored X W = kept at hc ⊢
  unfold AxisAgrees AxisWithin
  simp only [hc]
  constructor
  · rintro ⟨x', w', ⟨hin, rfl, rfl⟩, hx, hw⟩
    exact ⟨hin, hx, hw⟩
  · rintro ⟨hin, hx, hw⟩
    exact ⟨_, _, ⟨hin, rfl, rfl⟩, hx, hw⟩

theorem axisWithin_iff_stays {kind : RegionKind} (hk : 0 < k) (hn : 0 < n)
    {p : ℚ} (hq : 0 ≤ q) (hp : 0 ≤ p) (hX : onLevel kind q 1 n < 2 ^ 31) (hW : onLevel kind p 1 n < 2 ^ 63)
    (hf : CutsTo (cropAxis outside n hn (toInt (toLong (onLevel kind q 1 n)))
      (toSize (toLong (onLevel kind p 1 n)))) x w) :
    AxisWithin k (n ⌈/⌉ k) x w (stored (onLevel kind q k (n ⌈/⌉ k)) (onLevel kind p k (n ⌈/⌉ k))) ↔
      AxisStays k (n ⌈/⌉ k) x w (onLevel kind q k (n ⌈/⌉ k)) (onLevel kind p k (n ⌈/⌉ k)) := by
  have hX' := lt_of_le_of_lt (onLevel_le kind n hq hk) hX
  have hW' := lt_of_le_of_lt (onLevel_le kind n hp hk) hW
  rw [cutsTo_iff, stored_of_lt hX hW] at hf
  obtain ⟨-, rfl, rfl⟩ := hf
  rw [stored_of_lt hX' hW', AxisWithin]
  exact axis_near_iff hk (le_mul_onLevel hq hk) (onLevel_le kind n hp hk) (le_mul_onLevel hp hk)

/-! ### The whole image and its square -/

theorem ceilDiv_bounds (n : ℕ) (hk : 0 < k) : n ≤ k * (n ⌈/⌉ k) ∧ k * (n ⌈/⌉ k) < n + k := by
  refine ⟨le_mul_ceilDiv n hk, ?_⟩
  have hd := Nat.div_mul_le_self (n + k - 1) k
  rw [Nat.ceilDiv_eq_add_pred_div, Nat.mul_comm]
  omega

theorem near_ceilDiv (n : ℕ) (hk : 0 < k) : Near k (n ⌈/⌉ k) n := by
  obtain ⟨hl, hh⟩ := ceilDiv_bounds n hk
  rw [near_iff hk]
  omega

theorem near_margin (a b : ℕ) (hk : 0 < k) : Near k ((a ⌈/⌉ k - b ⌈/⌉ k) / 2) ((a - b) / 2) := by
  obtain ⟨hal, ha⟩ := ceilDiv_bounds a hk
  obtain ⟨hbl, hb⟩ := ceilDiv_bounds b hk
  generalize a ⌈/⌉ k = a' at hal ha ⊢
  generalize b ⌈/⌉ k = b' at hbl hb ⊢
  rw [near_iff hk]
  have hl : k * (2 * ((a' - b') / 2)) ≤ k * (a' - b') := Nat.mul_le_mul_left k (by omega)
  have hh : k * (a' - b') ≤ k * (2 * ((a' - b') / 2) + 1) := Nat.mul_le_mul_left k (by omega)
  rw [Nat.mul_sub, Nat.mul_left_comm] at hl
  rw [Nat.mul_sub, Nat.mul_add, Nat.mul_left_comm] at hh
  omega

theorem min_ceilDiv (a b : ℕ) (hk : 0 < k) : min (a ⌈/⌉ k) (b ⌈/⌉ k) = min a b ⌈/⌉ k := by
  rcases le_total a b with hle | hle
  · rw [min_eq_left hle, min_eq_left (ceilDiv_mono_left hk hle)]
  · rw [min_eq_right hle, min_eq_right (ceilDiv_mono_left hk hle)]

theorem cutsTo_of_inside (hn : 0 < n) (hw : 0 < w) (h : x + w ≤ n) : CutsTo (cropAxis outside n hn x w) x w := by
  have hx : (x : ℤ).toNat < n := by
    show x < n
    omega
  have hc : clip n x w hx = ⟨w, hw⟩ := by
    unfold clip
    rw [dif_neg hw.ne', if_neg (not_lt.mpr (le_trans (Nat.mod_le _ _) h))]
  refine ⟨⟨w, hw⟩, ?_, rfl⟩
  unfold cropAxis
  rw [if_neg (show ¬ (x : ℤ) < 0 by omega), dif_pos hx]
  exact congrArg (fun l => Except.ok (x, l)) hc

theorem CutsTo.unique {axis : Except CropError (ℕ × { len : ℕ // 0 < len })} (h : CutsTo axis x w)
    (h' : CutsTo axis x' w') : x = x' ∧ w = w' := by
  obtain ⟨l, hl, rfl⟩ := h
  obtain ⟨l', hl', rfl⟩ := h'
  cases hl.symm.trans hl'
  exact ⟨rfl, rfl⟩

theorem uncut_square (hk : r.kind = .square) (k : ℕ) (d : Dims) :
    r.uncut k d = ⟨((d.w - d.h) / 2 : ℕ), ((d.h - d.w) / 2 : ℕ), min d.w d.h, min d.w d.h⟩ := by
  unfold Region.uncut
  rw [hk]
  dsimp only
  split
  · rw [min_eq_right (by omega), show (d.h - d.w) / 2 = 0 by omega]
    rfl
  · rw [min_eq_left (by omega), show (d.w - d.h) / 2 = 0 by omega]
    rfl

theorem squareCrop_cutsTo (hk : r.kind = .square) (k : ℕ) (d : Dims) :
    CutsTo (r.axisX k d) ((d.w - d.h) / 2) (min d.w d.h) ∧ CutsTo (r.axisY k d) ((d.h - d.w) / 2) (min d.w d.h) := by
  have hw := d.w_pos
  have hh := d.h_pos
  unfold Region.axisX Region.axisY
  rw [uncut_square hk]
  dsimp only
  exact ⟨cutsTo_of_inside _ _ (by omega) (by omega), cutsTo_of_inside _ _ (by omega) (by omega)⟩

variable {d : Dims} {rect : Rect}

theorem squareCrop_agrees (hkn : r.kind = .square) (hk : 0 < k)
    (h : cropCoords r 1 d = .ok rect) : LevelAgrees r k hk d rect := by
  obtain ⟨hc, hct⟩ := (cropCoords_ok_iff r 1 d rect).mp h
  obtain ⟨hx, hw⟩ := hc.unique (squareCrop_cutsTo hkn 1 d).1
  obtain ⟨hy, hh⟩ := hct.unique (squareCrop_cutsTo hkn 1 d).2
  obtain ⟨hx', hy'⟩ := squareCrop_cutsTo hkn k (d.level k hk)
  have hs : Near k (min (d.level k hk).w (d.level k hk).h) (min d.w d.h) := by
    show Near k (min (d.w ⌈/⌉ k) (d.h ⌈/⌉ k)) _
    rw [min_ceilDiv _ _ hk]
    exact near_ceilDiv _ hk
  rw [levelAgrees_iff, hx, hw, hy, hh]
  exact ⟨⟨_, _, hx', near_margin _ _ hk, hs⟩, ⟨_, _, hy', near_margin _ _ hk, hs⟩⟩

theorem fullCrop_agrees (hkn : r.kind = .full) (hk : 0 < k)
    (h : cropCoords r 1 d = .ok rect) : LevelAgrees r k hk d rect := by
  rw [crop_full hkn] at h
  cases h
  have hz : Near k 0 0 := by
    rw [near_iff hk]
    omega
  exact ⟨⟨0, 0, d.level k hk⟩, crop_full hkn k _, hz, hz, near_ceilDiv _ hk, near_ceilDiv _ hk⟩

/-- The numbers fit the integers they are stored in. -/
def Region.InRange (r : Region) (d : Dims) : Prop :=
  (onLevel r.kind r.x 1 d.w < 2 ^ 31 ∧ onLevel r.kind r.w 1 d.w < 2 ^ 63) ∧
    onLevel r.kind r.y 1 d.h < 2 ^ 31 ∧ onLevel r.kind r.h 1 d.h < 2 ^ 63

/-- Both axes stay close to full resolution. -/
def Region.StaysClose (r : Region) (k : ℕ) (d : Dims) (rect : Rect) : Prop :=
  AxisStays k (d.w ⌈/⌉ k) rect.x rect.dims.w (onLevel r.kind r.x k (d.w ⌈/⌉ k)) (onLevel r.kind r.w k (d.w ⌈/⌉ k)) ∧
    AxisStays k (d.h ⌈/⌉ k) rect.y rect.dims.h (onLevel r.kind r.y k (d.h ⌈/⌉ k)) (onLevel r.kind r.h k (d.h ⌈/⌉ k))

/-- What does not fit is truncated to what is close. -/
def Region.TruncatedAlike (r : Region) (k : ℕ) (d : Dims) (rect : Rect) : Prop :=
  AxisWithin k (d.w ⌈/⌉ k) rect.x rect.dims.w
      (stored (onLevel r.kind r.x k (d.w ⌈/⌉ k)) (onLevel r.kind r.w k (d.w ⌈/⌉ k))) ∧
    AxisWithin k (d.h ⌈/⌉ k) rect.y rect.dims.h
      (stored (onLevel r.kind r.y k (d.h ⌈/⌉ k)) (onLevel r.kind r.h k (d.h ⌈/⌉ k)))

theorem levelAgrees_iff_truncatedAlike (hr : r.Numbered) (hk : 0 < k) (d : Dims) (rect : Rect) :
    LevelAgrees r k hk d rect ↔ r.TruncatedAlike k d rect := by
  rw [levelAgrees_iff, Region.axisX, Region.axisY, uncut_of_numbered hr hk]
  dsimp only
  rw [axisAgrees_iff, axisAgrees_iff]
  rfl

theorem truncatedAlike_iff_staysClose (hr : r.Numbered) (hk : 0 < k)
    (hrn : r.InRange d) (h : cropCoords r 1 d = .ok rect) : r.TruncatedAlike k d rect ↔ r.StaysClose k d rect := by
  obtain ⟨⟨hX, hW⟩, hY, hH⟩ := hrn
  obtain ⟨hx, hy, hw, hh⟩ := r.nonneg
  obtain ⟨hc, hct⟩ := (cropCoords_ok_iff r 1 d rect).mp h
  rw [Region.axisX, uncut_of_numbered hr Nat.one_pos] at hc
  rw [Region.axisY, uncut_of_numbered hr Nat.one_pos] at hct
  dsimp only at hc hct
  exact and_congr (axisWithin_iff_stays .outsideX hk d.w_pos hx hw hX hW hc)
    (axisWithin_iff_stays .outsideY hk d.h_pos hy hh hY hH hct)

/-- **A region on a level is the region in full resolution, up to a pixel, if and only if** it is the whole image
or the square, or on both axes its corner stays in the level and its side does not come out too long. -/
theorem levelCrop_agrees_iff {r : Region} {k : ℕ} (hk : 0 < k) {d : Dims} {rect : Rect}
    (h : cropCoords r 1 d = .ok rect) :
    LevelAgrees r k hk d rect ↔
      (r.Numbered → (r.InRange d → r.StaysClose k d rect) ∧ (¬ r.InRange d → r.TruncatedAlike k d rect)) := by
  by_cases hr : r.Numbered
  · rw [levelAgrees_iff_truncatedAlike hr hk]
    by_cases hrn : r.InRange d
    · rw [truncatedAlike_iff_staysClose hr hk hrn h]
      simp [hr, hrn]
    · simp [hr, hrn]
  · refine iff_of_true ?_ fun hr' => absurd hr' hr
    unfold Region.Numbered at hr
    cases hkn : r.kind with
    | full => exact fullCrop_agrees hkn hk h
    | square => exact squareCrop_agrees hkn hk h
    | coords => exact absurd (Or.inl hkn) hr
    | percents => exact absurd (Or.inr hkn) hr

theorem ten_pos : 0 < 10 := by decide

theorem corner_rounds_to_edge :
    (cropCoords (pixelRegion 96 0 4 100) 1 (.mk 100 100) = .ok ⟨96, 0, .mk 4 100⟩ ∧
      cropCoords (pixelRegion 96 0 4 100) 10 (.mk 10 10) = .error (.outsideX 10 10) ∧
      ¬ LevelAgrees (pixelRegion 96 0 4 100) 10 ten_pos (.mk 100 100) ⟨96, 0, .mk 4 100⟩) ∧
    cropCoords (pixelRegion 0 0 4 100) 1 (.mk 100 100) = .ok ⟨0, 0, .mk 4 100⟩ ∧
      cropCoords (pixelRegion 0 0 4 100) 10 (.mk 10 10) = .ok ⟨0, 0, .mk 10 10⟩ ∧
      ¬ LevelAgrees (pixelRegion 0 0 4 100) 10 ten_pos (.mk 100 100) ⟨0, 0, .mk 4 100⟩ := by
  have hl : (Dims.mk 100 100).level 10 ten_pos = .mk 10 10 := by decide +kernel
  have he : cropCoords (pixelRegion 96 0 4 100) 10 (.mk 10 10) = .error (.outsideX 10 10) := by decide +kernel
  have hwh : cropCoords (pixelRegion 0 0 4 100) 10 (.mk 10 10) = .ok ⟨0, 0, .mk 10 10⟩ := by decide +kernel
  refine ⟨⟨by decide +kernel, he, ?_⟩, by decide +kernel, hwh, ?_⟩
  · rintro ⟨rect, hr, -⟩
    rw [hl] at hr
    cases hr.symm.trans he
  · rintro ⟨rect, hr, -, -, hw, -⟩
    rw [hl] at hr
    cases hwh.symm.trans hr
    exact absurd hw (by rw [near_iff ten_pos]; decide)

theorem half_level_agrees :
    cropCoords (pixelRegion 40 30 200 150) 1 (.mk 400 300) = .ok ⟨40, 30, .mk 200 150⟩ ∧
      LevelAgrees (pixelRegion 40 30 200 150) 2 Nat.two_pos (.mk 400 300) ⟨40, 30, .mk 200 150⟩ := by
  have hr : cropCoords (pixelRegion 40 30 200 150) 1 (.mk 400 300) = .ok ⟨40, 30, .mk 200 150⟩ := by
    decide +kernel
  have hrn : (pixelRegion 40 30 200 150).InRange (.mk 400 300) := by
    unfold Region.InRange
    decide +kernel
  have hc : (pixelRegion 40 30 200 150).StaysClose 2 (.mk 400 300) ⟨40, 30, .mk 200 150⟩ := by
    unfold Region.StaysClose AxisStays
    decide +kernel
  refine ⟨hr, (levelCrop_agrees_iff Nat.two_pos hr).mpr fun _ => ⟨fun _ => hc, fun hn => ?_⟩⟩
  exact absurd hrn hn

end Sipi.Geometry
