import Sipi.Geometry.Readers
import Sipi.Geometry.Rotation

/-!
# The size of an image request, in single precision

`get_size` of `iiifparser/cpp/value_objects/SipiSize.cpp` computes in `float`.

## Honest scope

The sides of an image are 32-bit numbers in every format. The percentage and the region are read exactly.
-/

namespace Sipi.Geometry

open Sipi.Iiif Sipi.Theory

namespace Rounded

section
variable (fl : ℚ → ℚ)

/-- A side after `k` halvings: `ceilf(side / sf)`. -/
def halved (side k : ℕ) : ℕ := ⌈fl (fl side / 2 ^ k)⌉₊

/-- The loop over one side. -/
def halvings (side n : ℕ) : ℕ → ℕ → ℕ
  | 0, k => k
  | left + 1, k => if n < halved fl side k then halvings side n left (k + 1) else k

/-- The loop over one side, with the step back. -/
def fit (side n left : ℕ) : Fit :=
  let k := halvings fl side n left 0
  if halved fl side k < n then ⟨k - 1, false⟩ else ⟨k, halved fl side k = n⟩

/-- The other side of a `w,` or `,h` size. -/
def otherSide (f : Fit) (side n other : ℕ) : ℕ :=
  if f.exactMatch then halved fl other f.reduce else ⌈fl (fl (other * n : ℕ) / fl side)⌉₊

/-- The sides of a `!w,h` size. -/
def maxdimSides (s : SizeParts) (d : Dims) : ℕ × ℕ :=
  let fx := fl (fl s.nx / fl d.w)
  let fy := fl (fl s.ny / fl d.h)
  if fx < fy then (s.nx, ⌈fl (fl d.h * fx)⌉₊) else (⌈fl (fl d.w * fy)⌉₊, s.ny)

/-- Width and height of `get_size`, with a cap. -/
def sides (cap : ℕ) (s : SizeParts) (d : Dims) : ℕ × ℕ :=
  match s.kind with
  | .undefined => (0, 0)
  | .full => (d.w, d.h)
  | .pixelsXy => (s.nx, s.ny)
  | .pixelsX => (s.nx, otherSide fl (fit fl d.w s.nx cap) d.w s.nx d.h)
  | .pixelsY => (otherSide fl (fit fl d.h s.ny cap) d.h s.ny d.w, s.ny)
  | .percents => (⌈fl (fl (fl d.w * fl s.percent) / 100)⌉₊, ⌈fl (fl (fl d.h * fl s.percent) / 100)⌉₊)
  | .reduce => (halved fl d.w s.reduce.toNat, halved fl d.h s.reduce.toNat)
  | .maxdim => maxdimSides fl s d

/-- `get_size`, as far as the sides go. -/
def getSize (cap : ℕ) (s : SizeParts) (d : Dims) : Except SizeError (ℕ × ℕ) :=
  let t := sides fl cap s d
  if s.kind ∉ [SizeKind.undefined, .full, .reduce] ∧ s.upscaling = false ∧ (d.w < t.1 ∨ d.h < t.2) then
    .error .upscaling
  else .ok t

/-- `out_w` and `out_h` of `compute_decode_dims`. -/
def outSides (full : Dims) (clevels : ℤ) (buffer : Dims) (region : Region) (size : SizeParts) :
    Except ReadError (ℕ × ℕ) := do
  let rect ← cropFound region full
  let roi := (rect.map Rect.dims).getD full
  if size.kind = .full then return roi.sides
  match getSize fl clevels.toNat size roi with
  | .ok t => return (if t.1 = 0 then buffer.w else t.1, if t.2 = 0 then buffer.h else t.2)
  | .error e => throw (.size e)

end

@[simp] theorem halved_id (side k : ℕ) : halved id side k = side ⌈/⌉ 2 ^ k := by
  have h := ceil_div_eq_ceilDiv side (show 0 < 2 ^ k by positivity)
  simpa [halved] using h

@[simp] theorem halvings_id (side n left k : ℕ) : halvings id side n left k = Theory.halvings side n left k := by
  induction left generalizing k with
  | zero => rfl
  | succ left ih => simp [halvings, Theory.halvings, ih]

@[simp] theorem fit_id (side n left : ℕ) : fit id side n left = fitAt side n (Theory.halvings side n left 0) := by
  simp [fit, fitAt]

theorem sides_id (cap : ℕ) {s : SizeParts} (hv : SizeParts.Valid s) (d : Dims) :
    sides id cap s d = target (some cap) s d := by
  have ho : ∀ (f : Fit) {side : ℕ}, 0 < side → ∀ n other,
      otherSide id f side n other = Geometry.otherSide f side n other := by
    intro f side hs n other
    have h := ceil_div_eq_ceilDiv (other * n) hs
    simp only [otherSide, Geometry.otherSide, halved_id, id_eq, h]
  unfold sides target
  unfold SizeParts.Valid at hv
  cases hk : s.kind <;> simp only [hk] at hv ⊢
  case pixelsX => rw [ho _ d.w_pos, fit_id, ← otherSide_fitAt (some cap) hv, Option.getD_some]
  case pixelsY => rw [ho _ d.h_pos, fit_id, ← otherSide_fitAt (some cap) hv, Option.getD_some]
  case percents => simp
  case maxdim => simp [maxdimSides, boxSides]

/-! ### Single precision -/

/-- A monotone rounding that keeps powers of two. -/
structure KeepsPowers (fl : ℚ → ℚ) : Prop where
  mono : Monotone fl
  pow : ∀ e : ℤ, -64 ≤ e → e ≤ 64 → fl (2 ^ e) = 2 ^ e

theorem keepsPowers_single : KeepsPowers single.round where
  mono := fun _ _ => single.round_mono
  pow e hl _ := by
    refine Format.round_of_mem ⟨1, e, by norm_num [single], ?_, by simp⟩
    have : single.minExp = -149 := rfl
    omega

theorem single_natCast {n : ℕ} (h : n < 2 ^ 24) : single.round n = n := by
  refine Format.round_of_mem ⟨n, 0, ?_, ?_, by simp⟩
  · rw [abs_of_nonneg (Int.natCast_nonneg n)]
    exact_mod_cast h
  · exact (by decide : single.minExp ≤ 0)

section
variable {fl : ℚ → ℚ} (hfl : KeepsPowers fl)
include hfl

theorem one_le_fl {n : ℕ} (hn : 0 < n) : 1 ≤ fl n := by
  have h := hfl.mono (show (2 : ℚ) ^ (0 : ℤ) ≤ n by rw [zpow_zero]; exact_mod_cast hn)
  rw [hfl.pow 0 (by norm_num) (by norm_num)] at h
  simpa using h

theorem fl_le {n : ℕ} (hn : n ≤ 2 ^ 64) : fl n ≤ 2 ^ 64 := by
  have h := hfl.mono (show (n : ℚ) ≤ 2 ^ (64 : ℤ) by exact_mod_cast hn)
  rwa [hfl.pow 64 (by norm_num) (by norm_num)] at h

theorem tiny_le_fl {x : ℚ} (hx : 1 / 2 ^ 64 ≤ x) : 1 / 2 ^ 64 ≤ fl x := by
  have h := hfl.mono (show (2 : ℚ) ^ (-64 : ℤ) ≤ x by norm_num at hx ⊢; exact hx)
  rw [hfl.pow (-64) (by norm_num) (by norm_num)] at h
  norm_num at h ⊢
  exact h

theorem ceil_fl_pos {x : ℚ} (hx : 1 / 2 ^ 64 ≤ x) : 0 < ⌈fl x⌉₊ :=
  Nat.ceil_pos.mpr (lt_of_lt_of_le (by norm_num) (tiny_le_fl hfl hx))

omit hfl in
theorem tiny_le_div {x y : ℚ} (hx : 1 ≤ x) (hy : 0 < y) (hle : y ≤ 2 ^ 64) : 1 / 2 ^ 64 ≤ x / y := by
  rw [div_le_div_iff₀ (by norm_num) hy]
  calc 1 * y ≤ 1 * 2 ^ 64 := by linarith
    _ ≤ x * 2 ^ 64 := by nlinarith

end

theorem lt_halved_of_lt (fl : ℚ → ℚ) (side n : ℕ) {left k j : ℕ} (hkj : k ≤ j) (hj : j < halvings fl side n left k) :
    n < halved fl side j := by
  induction left generalizing k with
  | zero => exact absurd hj (not_lt.mpr hkj)
  | succ left ih =>
    rw [halvings] at hj
    split at hj
    · next hm =>
      rcases hkj.eq_or_lt with rfl | hlt
      · exact hm
      · exact ih hlt hj
    · exact absurd hj (not_lt.mpr hkj)

section
variable {fl : ℚ → ℚ} (hfl : KeepsPowers fl)
include hfl

theorem reduce_le {side n : ℕ} (hn : 0 < n) (hs : side ≤ 2 ^ 64) (left : ℕ) : (fit fl side n left).reduce ≤ 64 := by
  have hk : halvings fl side n left 0 ≤ 64 := by
    by_contra hlt
    have hm := lt_halved_of_lt fl side n (Nat.zero_le 64) (not_le.mp hlt)
    have ho : halved fl side 64 ≤ 1 := by
      have hd : fl side / 2 ^ 64 ≤ 2 ^ (0 : ℤ) := by
        rw [div_le_iff₀ (by norm_num)]
        simpa using fl_le hfl hs
      have h := hfl.mono hd
      rw [hfl.pow 0 (by norm_num) (by norm_num)] at h
      exact Nat.ceil_le.mpr (by simpa using h)
    omega
  unfold fit
  dsimp only
  split
  · exact le_trans (Nat.sub_le _ _) hk
  · exact hk

theorem otherSide_pos {side n other : ℕ} (hn : 0 < n) (hs : 0 < side) (ho : 0 < other) (hle : side ≤ 2 ^ 64)
    (cap : ℕ) : 0 < otherSide fl (fit fl side n cap) side n other := by
  unfold otherSide
  split
  · refine ceil_fl_pos hfl (tiny_le_div (one_le_fl hfl ho) (by positivity) ?_)
    exact pow_le_pow_right₀ (by norm_num) (reduce_le hfl hn hle cap)
  · exact ceil_fl_pos hfl (tiny_le_div (one_le_fl hfl (Nat.mul_pos ho hn))
      (lt_of_lt_of_le one_pos (one_le_fl hfl hs)) (fl_le hfl hle))

theorem ceil_share_pos {side n other : ℕ} (hn : 0 < n) (hsd : 0 < side) (ho : 0 < other) (hle : side ≤ 2 ^ 64) :
    0 < ⌈fl (fl other * fl (fl n / fl side))⌉₊ := by
  refine ceil_fl_pos hfl ?_
  have hs := tiny_le_fl hfl (tiny_le_div (one_le_fl hfl hn)
    (lt_of_lt_of_le one_pos (one_le_fl hfl hsd)) (fl_le hfl hle))
  have hon := one_le_fl hfl ho
  calc (1 : ℚ) / 2 ^ 64 = 1 * (1 / 2 ^ 64) := (one_mul _).symm
    _ ≤ fl other * fl (fl n / fl side) := mul_le_mul hon hs (by norm_num) (by linarith)

theorem sides_pos {s : SizeParts} (hv : SizeParts.Valid s)
    (hkn : s.kind ∈ [SizeKind.pixelsXy, .pixelsX, .pixelsY, .maxdim]) {d : Dims} (hw : d.w ≤ 2 ^ 64)
    (hh : d.h ≤ 2 ^ 64) (cap : ℕ) : 0 < (sides fl cap s d).1 ∧ 0 < (sides fl cap s d).2 := by
  unfold SizeParts.Valid at hv
  unfold sides
  cases hk : s.kind <;> simp only [hk] at hv hkn ⊢
  case full | percents => simp at hkn
  case pixelsXy => exact hv
  case pixelsX => exact ⟨hv, otherSide_pos hfl hv d.w_pos d.h_pos hw cap⟩
  case pixelsY => exact ⟨otherSide_pos hfl hv d.h_pos d.w_pos hh cap, hv⟩
  case maxdim =>
    unfold maxdimSides
    dsimp only
    split
    · exact ⟨hv.1.1, ceil_share_pos hfl hv.1.1 d.w_pos d.h_pos hw⟩
    · exact ⟨ceil_share_pos hfl hv.1.2 d.h_pos d.w_pos hh, hv.1.2⟩

end

end Rounded

end Sipi.Geometry
