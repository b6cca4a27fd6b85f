import Sipi.Geometry.Size

/-!
# The region of an image request

`iiifparser/cpp/value_objects/SipiRegion.cpp`: a region is turned into a rectangle of an image (`crop_coords`).

## Honest scope

The source computes in `float`; here products and quotients are exact. A value that does not fit a `long` is read
as its least value, as the hardware converts it.
-/

namespace Sipi.Geometry

open Sipi.Iiif Sipi.Theory

/-- `SipiRegion`, its numbers not negative. -/
structure Region where
  kind : RegionKind
  x : ℚ
  y : ℚ
  w : ℚ
  h : ℚ
  nonneg : 0 ≤ x ∧ 0 ≤ y ∧ 0 ≤ w ∧ 0 ≤ h

/-- A value as a `long`. -/
def toLong (z : ℤ) : ℤ := if -2 ^ 63 ≤ z ∧ z < 2 ^ 63 then z else -2 ^ 63

/-- A `long` as an `int`. -/
def toInt (z : ℤ) : ℤ := Int.bmod z (2 ^ 32)

/-- A `long` as a `size_t`. -/
def toSize (z : ℤ) : ℕ := (z % 2 ^ 64).toNat

/-- `lroundf` of a number that is not negative. -/
def lround (q : ℚ) : ℤ := toLong ⌊q + 1 / 2⌋

/-- `lroundf` of a coordinate over the ratio. -/
def lroundDiv (q : ℚ) (reduce : ℕ) : ℤ := if reduce = 0 then -2 ^ 63 else lround (q / reduce)

/-- The rectangle before it is cut to the image. -/
structure Uncut where
  x : ℤ
  y : ℤ
  w : ℕ
  h : ℕ

/-- The rectangle that a region asks for. -/
def Region.uncut (r : Region) (reduce : ℕ) (d : Dims) : Uncut :=
  match r.kind with
  | .coords =>
    ⟨toInt (lroundDiv r.x reduce), toInt (lroundDiv r.y reduce), toSize (lroundDiv r.w reduce),
      toSize (lroundDiv r.h reduce)⟩
  | .square => if d.h < d.w then ⟨((d.w - d.h) / 2 : ℕ), 0, d.h, d.h⟩ else ⟨0, ((d.h - d.w) / 2 : ℕ), d.w, d.w⟩
  | .percents =>
    ⟨toInt (lround (r.x * d.w / 100)), toInt (lround (r.y * d.h / 100)), toSize (lround (r.w * d.w / 100)),
      toSize (lround (r.h * d.h / 100))⟩
  | .full => ⟨0, 0, d.w, d.h⟩

/-- `SipiError`: the corner is outside the image. -/
inductive CropError where
  | outsideX (x : ℤ) (nx : ℕ)
  | outsideY (y : ℤ) (ny : ℕ)
  deriving DecidableEq

/-- A side that ends at the edge. -/
def clip (n x w : ℕ) (hx : x < n) : { len : ℕ // 0 < len } :=
  if hw : w = 0 then ⟨n - x, by omega⟩
  else if n < (x + w) % 2 ^ 64 then ⟨n - x, by omega⟩
  else ⟨w, Nat.pos_of_ne_zero hw⟩

/-- One axis of `crop_coords`. -/
def cropAxis (outside : ℤ → ℕ → CropError) (n : ℕ) (hn : 0 < n) (x : ℤ) (w : ℕ) :
    Except CropError (ℕ × { len : ℕ // 0 < len }) :=
  if x < 0 then .ok (0, clip n 0 (toSize (w + x)) hn)
  else if hx : x.toNat < n then .ok (x.toNat, clip n x.toNat w hx)
  else .error (outside x n)

/-- A rectangle in an image. -/
structure Rect where
  x : ℕ
  y : ℕ
  dims : Dims
  deriving DecidableEq

/-- `crop_coords`, on a level of ratio `reduce`. -/
def cropCoords (r : Region) (reduce : ℕ) (d : Dims) : Except CropError Rect :=
  let u := r.uncut reduce d
  match cropAxis .outsideX d.w d.w_pos u.x u.w, cropAxis .outsideY d.h d.h_pos u.y u.h with
  | .error e, _ => .error e
  | .ok _, .error e => .error e
  | .ok (x, w), .ok (y, h) => .ok ⟨x, y, ⟨w.1, h.1, w.2, h.2⟩⟩

/-! ### A rectangle is in the image -/

theorem clip_le {n x w : ℕ} (hx : x < n) (hw : x + w < 2 ^ 64 ∨ x + w ≤ n) : x + (clip n x w hx).1 ≤ n := by
  unfold clip
  split
  · show x + (n - x) ≤ n
    omega
  · split
    · show x + (n - x) ≤ n
      omega
    · next hf =>
      show x + w ≤ n
      rcases hw with hw | hw
      · rw [Nat.mod_eq_of_lt hw] at hf
        omega
      · exact hw

theorem toSize_lt (z : ℤ) : toSize z < 2 ^ 64 := by
  have := Int.emod_lt_of_pos z (show (0 : ℤ) < 2 ^ 64 by norm_num)
  unfold toSize
  omega

theorem cropAxis_le {outside : ℤ → ℕ → CropError} {n : ℕ} {hn : 0 < n} {x : ℤ} {w : ℕ}
    {p : ℕ × { len : ℕ // 0 < len }} (hw : x.toNat + w < 2 ^ 64 ∨ x.toNat + w ≤ n)
    (h : cropAxis outside n hn x w = .ok p) : p.1 + p.2.1 ≤ n := by
  unfold cropAxis at h
  split at h
  · cases h
    refine clip_le hn (Or.inl ?_)
    rw [zero_add]
    exact toSize_lt _
  · split at h
    · next hx =>
      cases h
      exact clip_le hx hw
    · cases h

theorem toSize_lround_le {q : ℚ} (hq : 0 ≤ q) : toSize (lround q) ≤ 2 ^ 63 := by
  have hf : 0 ≤ ⌊q + 1 / 2⌋ := Int.floor_nonneg.mpr (by positivity)
  unfold lround toLong toSize
  split <;> omega

theorem toSize_lroundDiv_le {q : ℚ} (hq : 0 ≤ q) (reduce : ℕ) : toSize (lroundDiv q reduce) ≤ 2 ^ 63 := by
  unfold lroundDiv
  split
  · decide
  · exact toSize_lround_le (by positivity)

theorem toInt_lt (z : ℤ) : (toInt z).toNat < 2 ^ 31 := by
  have := Int.bmod_lt (x := z) (m := 2 ^ 32) (by norm_num)
  unfold toInt
  omega

theorem uncut_bounded (r : Region) (reduce : ℕ) (d : Dims) :
    ((r.uncut reduce d).x.toNat + (r.uncut reduce d).w < 2 ^ 64 ∨
        (r.uncut reduce d).x.toNat + (r.uncut reduce d).w ≤ d.w) ∧
      ((r.uncut reduce d).y.toNat + (r.uncut reduce d).h < 2 ^ 64 ∨
        (r.uncut reduce d).y.toNat + (r.uncut reduce d).h ≤ d.h) := by
  obtain ⟨_, _, hw, hh⟩ := r.nonneg
  unfold Region.uncut
  cases r.kind with
  | coords =>
    have h₁ := toInt_lt (lroundDiv r.x reduce)
    have h₂ := toInt_lt (lroundDiv r.y reduce)
    have h₃ := toSize_lroundDiv_le hw reduce
    have h₄ := toSize_lroundDiv_le hh reduce
    exact ⟨Or.inl (by dsimp only; omega), Or.inl (by dsimp only; omega)⟩
  | square =>
    dsimp only
    split
    · exact ⟨Or.inr (by dsimp only; omega), Or.inr (by dsimp only; omega)⟩
    · exact ⟨Or.inr (by dsimp only; omega), Or.inr (by dsimp only; omega)⟩
  | percents =>
    have h₁ := toInt_lt (lround (r.x * d.w / 100))
    have h₂ := toInt_lt (lround (r.y * d.h / 100))
    have h₃ := toSize_lround_le (show 0 ≤ r.w * d.w / 100 by positivity)
    have h₄ := toSize_lround_le (show 0 ≤ r.h * d.h / 100 by positivity)
    exact ⟨Or.inl (by dsimp only; omega), Or.inl (by dsimp only; omega)⟩
  | full => exact ⟨Or.inr (by dsimp only; omega), Or.inr (by dsimp only; omega)⟩

theorem crop_inside {r : Region} {reduce : ℕ} {d : Dims} {rect : Rect} (h : cropCoords r reduce d = .ok rect) :
    rect.x + rect.dims.w ≤ d.w ∧ rect.y + rect.dims.h ≤ d.h := by
  obtain ⟨hx, hy⟩ := uncut_bounded r reduce d
  unfold cropCoords at h
  dsimp only at h
  split at h
  · cases h
  · cases h
  · next h₁ h₂ =>
    cases h
    exact ⟨cropAxis_le hx h₁, cropAxis_le hy h₂⟩

theorem crop_within {r : Region} {reduce : ℕ} {d : Dims} {rect : Rect} (h : cropCoords r reduce d = .ok rect) :
    rect.dims.Within d := by
  obtain ⟨hw, hh⟩ := crop_inside h
  exact ⟨by omega, by omega⟩

theorem crop_full {r : Region} (hk : r.kind = .full) (reduce : ℕ) (d : Dims) :
    cropCoords r reduce d = .ok ⟨0, 0, d⟩ := by
  have hc : ∀ (n : ℕ) (hn : 0 < n), clip n 0 n hn = ⟨n, hn⟩ := by
    intro n hn
    unfold clip
    rw [dif_neg (by omega), if_neg (not_lt.mpr (by rw [zero_add]; exact Nat.mod_le _ _))]
  have ha : ∀ (outside : ℤ → ℕ → CropError) (n : ℕ) (hn : 0 < n), cropAxis outside n hn 0 n = .ok (0, ⟨n, hn⟩) := by
    intro outside n hn
    unfold cropAxis
    rw [if_neg (lt_irrefl _), dif_pos (show (0 : ℤ).toNat < n from hn)]
    exact congrArg (fun len => Except.ok (0, len)) (hc n hn)
  simp only [cropCoords, Region.uncut, hk, ha]

theorem parseF32_nonneg {s : Str} {q : ℚ} (h : parseF32 s = some q) : 0 ≤ q := by
  unfold parseF32 at h
  split at h
  · obtain ⟨n, _, rfl⟩ := Option.map_eq_some_iff.mp h
    exact Nat.cast_nonneg n
  · obtain ⟨n, _, h⟩ := Option.bind_eq_some_iff.mp h
    obtain ⟨d, _, rfl⟩ := Option.map_eq_some_iff.mp h
    positivity
  · cases h

end Sipi.Geometry
