import Sipi.Geometry.Region

/-!
# What is cut out of an image

`crop_coords` of `iiifparser/cpp/value_objects/SipiRegion.cpp` keeps the corner of a region in an `int` and its
sides in `size_t`.

## Honest scope

Products and quotients are exact; a value that does not fit a `long` is read as its least value.
-/

namespace Sipi.Geometry

open Sipi.Iiif Sipi.Theory

theorem Region.nonneg_over (r : Region) {reduce : ℚ} (h : 1 ≤ reduce) :
    0 ≤ r.x / reduce ∧ 0 ≤ r.y / reduce ∧ 0 ≤ r.w / reduce ∧ 0 ≤ r.h / reduce := by
  obtain ⟨hx, hy, hw, hh⟩ := r.nonneg
  have hp : 0 ≤ reduce := le_trans zero_le_one h
  exact ⟨div_nonneg hx hp, div_nonneg hy hp, div_nonneg hw hp, div_nonneg hh hp⟩

/-- `set_reduce`, with any ratio. -/
def Region.over (r : Region) (reduce : ℚ) (h : 1 ≤ reduce) : Region :=
  match r.kind with
  | .coords => ⟨.coords, r.x / reduce, r.y / reduce, r.w / reduce, r.h / reduce, r.nonneg_over h⟩
  | _ => r

/-- `crop_coords` after `set_reduce`. -/
def cropCoordsAt (r : Region) (reduce : ℚ) (h : 1 ≤ reduce) (d : Dims) : Except CropError Rect :=
  cropCoords (r.over reduce h) 1 d

theorem lroundDiv_of_ne {k : ℕ} (hk : k ≠ 0) (q : ℚ) : lroundDiv q k = lround (q / k) := if_neg hk

theorem lroundDiv_one (q : ℚ) : lroundDiv q 1 = lround q := by
  rw [lroundDiv_of_ne Nat.one_ne_zero, Nat.cast_one, div_one]

/-- **A rectangle that is cut out is in the image and has pixels.** -/
theorem rectangle_inside (r : Region) (reduce : ℚ) (h : 1 ≤ reduce) (d : Dims) {rect : Rect}
    (hrect : cropCoordsAt r reduce h d = .ok rect) :
    (rect.x < d.w ∧ 1 ≤ rect.dims.w ∧ rect.x + rect.dims.w ≤ d.w) ∧
      (rect.y < d.h ∧ 1 ≤ rect.dims.h ∧ rect.y + rect.dims.h ≤ d.h) := by
  obtain ⟨hw, hh⟩ := crop_inside hrect
  have hwp := rect.dims.w_pos
  have hhp := rect.dims.h_pos
  omega

/-- A region in whole pixels. -/
def pixelRegion (x y w h : ℕ) : Region :=
  ⟨.coords, x, y, w, h, Nat.cast_nonneg x, Nat.cast_nonneg y, Nat.cast_nonneg w, Nat.cast_nonneg h⟩

theorem one_le_three_halves : (1 : ℚ) ≤ 3 / 2 := by norm_num

theorem pixel_inside :
    cropCoordsAt (pixelRegion 90 20 1 1) (3 / 2) one_le_three_halves (.mk 100 100) = .ok ⟨60, 13, .mk 1 1⟩ ∧
      (60 < 100 ∧ 1 ≤ 1 ∧ 60 + 1 ≤ 100) ∧ (13 < 100 ∧ 1 ≤ 1 ∧ 13 + 1 ≤ 100) := by
  have hr : cropCoordsAt (pixelRegion 90 20 1 1) (3 / 2) one_le_three_halves (.mk 100 100) =
      .ok ⟨60, 13, .mk 1 1⟩ := by decide +kernel
  exact ⟨hr, rectangle_inside (pixelRegion 90 20 1 1) (3 / 2) one_le_three_halves (.mk 100 100) hr⟩

variable {n : ℕ}

theorem toLong_of_lt (h : n < 2 ^ 63) : toLong n = n := if_pos (by omega)

theorem toInt_of_lt (h : n < 2 ^ 31) : toInt n = n := by
  apply Int.bmod_eq_of_le <;> omega

theorem toSize_of_lt (h : n < 2 ^ 64) : toSize n = n := by
  unfold toSize
  omega

theorem lround_natCast (n : ℕ) : lround (n : ℚ) = toLong n := by
  have hf : ⌊(n : ℚ) + 1 / 2⌋ = n := by
    rw [Int.floor_eq_iff]
    push_cast
    constructor <;> linarith
  rw [lround, hf]

/-- A side that ends at the edge. -/
def cut (n x w : ℕ) : ℕ := if w = 0 then n - x else min w (n - x)

variable {x w : ℕ}

theorem clip_eq_cut (hx : x < n) (hw : x + w < 2 ^ 64) : (clip n x w hx).1 = cut n x w := by
  unfold clip cut
  split
  · rfl
  · rw [Nat.mod_eq_of_lt hw]
    split
    · show n - x = min w (n - x)
      omega
    · show w = min w (n - x)
      omega

variable (outside : ℤ → ℕ → CropError)

theorem cropAxis_natCast (hn : 0 < n) (hw : x + w < 2 ^ 64) :
    if x < n then ∃ len, cropAxis outside n hn x w = .ok (x, len) ∧ len.1 = cut n x w
    else cropAxis outside n hn x w = .error (outside x n) := by
  have hp : ¬ (x : ℤ) < 0 := by omega
  unfold cropAxis
  by_cases hx : x < n
  · rw [if_pos hx, if_neg hp, dif_pos (show (x : ℤ).toNat < n from hx)]
    exact ⟨clip n x w hx, rfl, clip_eq_cut hx hw⟩
  · rw [if_neg hx, if_neg hp, dif_neg (show ¬ (x : ℤ).toNat < n from hx)]

/-- `crop_coords` on the width. -/
def Region.axisX (r : Region) (reduce : ℕ) (d : Dims) : Except CropError (ℕ × { len : ℕ // 0 < len }) :=
  cropAxis .outsideX d.w d.w_pos (r.uncut reduce d).x (r.uncut reduce d).w

/-- `crop_coords` on the height. -/
def Region.axisY (r : Region) (reduce : ℕ) (d : Dims) : Except CropError (ℕ × { len : ℕ // 0 < len }) :=
  cropAxis .outsideY d.h d.h_pos (r.uncut reduce d).y (r.uncut reduce d).h

/-- An axis is cut to `len` pixels from `x` on. -/
def CutsTo (axis : Except CropError (ℕ × { len : ℕ // 0 < len })) (x len : ℕ) : Prop :=
  ∃ l, axis = .ok (x, l) ∧ l.1 = len

theorem cropCoords_ok_iff (r : Region) (reduce : ℕ) (d : Dims) (rect : Rect) :
    cropCoords r reduce d = .ok rect ↔
      CutsTo (r.axisX reduce d) rect.x rect.dims.w ∧ CutsTo (r.axisY reduce d) rect.y rect.dims.h := by
  unfold cropCoords CutsTo Region.axisX Region.axisY
  dsimp only
  constructor
  · intro h
    split at h
    · cases h
    · cases h
    · next x w y len hx hy =>
      cases h
      exact ⟨⟨w, hx, rfl⟩, ⟨len, hy, rfl⟩⟩
  · rintro ⟨⟨l, hx, hl⟩, l', hy, hl'⟩
    rw [hx, hy]
    obtain ⟨x, y, w, h, hw, hh⟩ := rect
    subst hl hl'
    rfl

theorem cropCoords_error_iff (r : Region) (reduce : ℕ) (d : Dims) :
    (∃ e, cropCoords r reduce d = .error e) ↔
      (∃ e, r.axisX reduce d = .error e) ∨ ∃ e, r.axisY reduce d = .error e := by
  unfold cropCoords Region.axisX Region.axisY
  dsimp only
  split
  · next e hx => simp [hx]
  · next hx hy => simp [hy]
  · next hx hy => simp [hx, hy]

/-! ### A region in pixels -/

theorem toSize_toLong (w : ℕ) : toSize (toLong w) = min w (2 ^ 63) := by
  unfold toSize toLong
  split <;> omega

theorem toInt_toLong (x : ℕ) : toInt (toLong x) =
    if 2 ^ 63 ≤ x then 0
    else if x % 2 ^ 32 < 2 ^ 31 then ((x % 2 ^ 32 : ℕ) : ℤ) else ((x % 2 ^ 32 : ℕ) : ℤ) - 2 ^ 32 := by
  by_cases hx : 2 ^ 63 ≤ x
  · rw [if_pos hx, toLong, if_neg (by omega)]
    rfl
  · rw [if_neg hx, toLong_of_lt (not_le.mp hx), toInt, Int.bmod_def]
    split <;> split <;> omega

theorem cropAxis_error_iff (hn : 0 < n) (x : ℤ) (w : ℕ) :
    (∃ e, cropAxis outside n hn x w = .error e) ↔ (n : ℤ) ≤ x := by
  unfold cropAxis
  split
  · next hng =>
    refine iff_of_false ?_ (by omega)
    rintro ⟨e, he⟩
    cases he
  · split
    · next hin =>
      refine iff_of_false ?_ (by omega)
      rintro ⟨e, he⟩
      cases he
    · next ho => exact iff_of_true ⟨_, rfl⟩ (by omega)

theorem cropAxis_corner {outside : ℤ → ℕ → CropError} {hn : 0 < n} {x : ℤ}
    {p : ℕ × { len : ℕ // 0 < len }} (h : cropAxis outside n hn x w = .ok p) : p.1 = x.toNat := by
  unfold cropAxis at h
  split at h
  · cases h
    show 0 = x.toNat
    omega
  · split at h
    · cases h
      rfl
    · cases h

/-- A corner that is outside once it is truncated. -/
def StaysOutside (n x : ℕ) : Prop := x < 2 ^ 63 ∧ n ≤ x % 2 ^ 32 ∧ x % 2 ^ 32 < 2 ^ 31

theorem pixelAxis_error_iff (hn : 0 < n) (x w : ℕ) :
    (∃ e, cropAxis outside n hn (toInt (toLong x)) w = .error e) ↔ StaysOutside n x := by
  rw [cropAxis_error_iff, toInt_toLong, StaysOutside]
  split
  · omega
  · split <;> omega

theorem pixelAxis_cutsTo_iff (hn : 0 < n) (hx : x < n) (hw : 0 < w) :
    CutsTo (cropAxis outside n hn (toInt (toLong x)) (toSize (toLong w))) x (min w (n - x)) ↔
      x < 2 ^ 31 ∧ min w (n - x) ≤ 2 ^ 63 := by
  rw [toSize_toLong]
  by_cases hi : x < 2 ^ 31
  · have ha := cropAxis_natCast outside hn (x := x) (w := min w (2 ^ 63)) (by omega)
    rw [if_pos hx] at ha
    obtain ⟨len, ha, hln⟩ := ha
    rw [toLong_of_lt (by omega), toInt_of_lt hi, ha]
    have hct : cut n x (min w (2 ^ 63)) = min (min w (2 ^ 63)) (n - x) := if_neg (by omega)
    constructor
    · rintro ⟨l, hl, hv⟩
      obtain rfl := (Prod.mk.inj (Except.ok.inj hl)).2
      omega
    · rintro ⟨-, hle⟩
      exact ⟨len, rfl, by omega⟩
  · refine iff_of_false ?_ (fun h => hi h.1)
    rintro ⟨l, hl, -⟩
    have hc : x = (toInt (toLong x)).toNat := cropAxis_corner hl
    have := toInt_lt (toLong x)
    omega

/-- A region is refused, or cut as IIIF asks. -/
def CutAsAsked (r : Region) (d : Dims) (x y w h : ℕ) : Prop :=
  if x < d.w ∧ y < d.h then
    ∃ rect, cropCoords r 1 d = .ok rect ∧ (rect.x = x ∧ rect.dims.w = min w (d.w - x)) ∧
      (rect.y = y ∧ rect.dims.h = min h (d.h - y))
  else ∃ e, cropCoords r 1 d = .error e

/-- No corner and no side is cut short by its type. -/
def PixelsInRange (d : Dims) (x y w h : ℕ) : Prop :=
  if x < d.w ∧ y < d.h then
    (x < 2 ^ 31 ∧ min w (d.w - x) ≤ 2 ^ 63) ∧ (y < 2 ^ 31 ∧ min h (d.h - y) ≤ 2 ^ 63)
  else StaysOutside d.w x ∨ StaysOutside d.h y

/-- The text of a region in pixels, with its numbers. -/
def PixelText (s : Str) (x y w h : ℕ) : Prop :=
  ∃ x' y' w' h', s = pixelText x' y' w' h' ∧ parseDigits x' = some x ∧ parseDigits y' = some y ∧
    parseDigits w' = some w ∧ parseDigits h' = some h

theorem uncut_of_pixelText {s : Str} {y h : ℕ} {r : Region} (hs : PixelText s x y w h)
    (hp : parseRegion s = .ok (r.kind, r.x, r.y, r.w, r.h)) (d : Dims) :
    r.uncut 1 d = ⟨toInt (toLong x), toInt (toLong y), toSize (toLong w), toSize (toLong h)⟩ := by
  obtain ⟨x', y', w', h', rfl, hx, hy, hw, hh⟩ := hs
  obtain ⟨hxd, rfl⟩ := parseDigits_eq_some.mp hx
  obtain ⟨hyd, rfl⟩ := parseDigits_eq_some.mp hy
  obtain ⟨hwd, rfl⟩ := parseDigits_eq_some.mp hw
  obtain ⟨hhd, rfl⟩ := parseDigits_eq_some.mp hh
  rw [parseRegion_pixelText hxd hyd hwd hhd] at hp
  obtain ⟨hk, hrx, hry, hrw, hrh⟩ : _ ∧ _ ∧ _ ∧ _ ∧ _ := by simpa using Except.ok.inj hp
  unfold Region.uncut
  rw [← hk, ← hrx, ← hry, ← hrw, ← hrh]
  simp only [lroundDiv_one, lround_natCast]

/-- **A region `x,y,w,h` of digits is cut or refused as it asks if and only if** no corner in the image is truncated,
no side is cut short, and a corner outside the image is outside once it is truncated. -/
theorem pixels_cut_iff {s : Str} {x y w h : ℕ} {r : Region} (hs : PixelText s x y w h)
    (hparse : parseRegion s = .ok (r.kind, r.x, r.y, r.w, r.h)) (hw : 0 < w) (hh : 0 < h) (d : Dims) :
    CutAsAsked r d x y w h ↔ PixelsInRange d x y w h := by
  have hu := uncut_of_pixelText hs hparse d
  have ha : r.axisX 1 d = cropAxis .outsideX d.w d.w_pos (toInt (toLong x)) (toSize (toLong w)) := by
    rw [Region.axisX, hu]
  have hay : r.axisY 1 d = cropAxis .outsideY d.h d.h_pos (toInt (toLong y)) (toSize (toLong h)) := by
    rw [Region.axisY, hu]
  unfold CutAsAsked PixelsInRange
  split
  · next hin =>
    rw [← pixelAxis_cutsTo_iff .outsideX d.w_pos hin.1 hw, ← pixelAxis_cutsTo_iff .outsideY d.h_pos hin.2 hh,
      ← ha, ← hay]
    constructor
    · rintro ⟨rect, hr, ⟨hx, hw⟩, hy, hh⟩
      have hax := (cropCoords_ok_iff r 1 d rect).mp hr
      rwa [hx, hw, hy, hh] at hax
    · rintro ⟨hc, hct⟩
      obtain ⟨l, hl, hln⟩ := hc
      obtain ⟨l', hl', hL'⟩ := hct
      refine ⟨⟨x, y, l.1, l'.1, l.2, l'.2⟩, ?_, ⟨rfl, hln⟩, rfl, hL'⟩
      exact (cropCoords_ok_iff r 1 d _).mpr ⟨⟨l, hl, rfl⟩, ⟨l', hl', rfl⟩⟩
  · rw [cropCoords_error_iff, ha, hay, pixelAxis_error_iff, pixelAxis_error_iff]

theorem far_corner_is_cut :
    PixelText (txt "4294967296,0,1,1") 4294967296 0 1 1 ∧
      parseRegion (txt "4294967296,0,1,1") = .ok (.coords, 4294967296, 0, 1, 1) ∧
      cropCoords (pixelRegion 4294967296 0 1 1) 1 (.mk 100 100) = .ok ⟨0, 0, .mk 1 1⟩ ∧
      ¬ CutAsAsked (pixelRegion 4294967296 0 1 1) (.mk 100 100) 4294967296 0 1 1 := by
  have hr : cropCoords (pixelRegion 4294967296 0 1 1) 1 (.mk 100 100) = .ok ⟨0, 0, .mk 1 1⟩ := by
    decide +kernel
  refine ⟨⟨txt "4294967296", txt "0", txt "1", txt "1", rfl, ?_, ?_, ?_, ?_⟩, by decide +kernel, hr, fun h => ?_⟩
  any_goals decide +kernel
  rw [CutAsAsked, if_neg (by decide)] at h
  obtain ⟨e, he⟩ := h
  cases hr.symm.trans he

theorem near_corner_is_cut :
    PixelText (txt "90,20,1,1") 90 20 1 1 ∧ CutAsAsked (pixelRegion 90 20 1 1) (.mk 100 100) 90 20 1 1 := by
  have ht : PixelText (txt "90,20,1,1") 90 20 1 1 := by
    refine ⟨txt "90", txt "20", txt "1", txt "1", rfl, ?_, ?_, ?_, ?_⟩ <;> decide +kernel
  have hp : parseRegion (txt "90,20,1,1") = .ok (.coords, 90, 20, 1, 1) := by decide +kernel
  have hr : PixelsInRange (.mk 100 100) 90 20 1 1 := by
    rw [PixelsInRange, if_pos (by decide)]
    decide
  refine ⟨ht, (pixels_cut_iff (r := pixelRegion 90 20 1 1) ht hp ?_ ?_ (.mk 100 100)).mpr hr⟩
  · exact Nat.one_pos
  · exact Nat.one_pos

end Sipi.Geometry
