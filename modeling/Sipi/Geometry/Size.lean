import Sipi.Theory.Fallible
import Sipi.Theory.Halving
import Sipi.Iiif.Params
import Mathlib.Data.Rat.Floor

/-!
# The size of an image request

`iiifparser/cpp/value_objects/SipiSize.cpp`: a size is resolved against the dimensions of an image (`get_size`),
with a reduce level, the number of times a decoder may halve the image, and whether halving alone is enough.

## Honest scope

Quotients are exact. A cap of −1 is `INT_MAX` in the source and no cap here.
-/

namespace Sipi.Geometry

open Sipi.Iiif Sipi.Theory

/-- The dimensions of an image that has pixels. -/
@[ext] structure Dims where
  /-- The width. -/
  w : ℕ
  /-- The height. -/
  h : ℕ
  /-- There is a column. -/
  w_pos : 0 < w := by decide
  /-- There is a row. -/
  h_pos : 0 < h := by decide
  deriving DecidableEq

/-- The image halved a number of times, rounding up. -/
def Dims.reduced (d : Dims) (k : ℕ) : Dims :=
  ⟨d.w ⌈/⌉ 2 ^ k, d.h ⌈/⌉ 2 ^ k, ceilDiv_pos d.w_pos (by positivity), ceilDiv_pos d.h_pos (by positivity)⟩

theorem ceil_div_eq_ceilDiv (a : ℕ) {b : ℕ} (hb : 0 < b) : ⌈(a : ℚ) / b⌉₊ = a ⌈/⌉ b := by
  refine eq_of_forall_ge_iff fun c => ?_
  rw [Nat.ceil_le, ceilDiv_le_iff_le_mul hb, div_le_iff₀ (by exact_mod_cast hb), mul_comm]
  exact_mod_cast Iff.rfl

/-- No wider and no higher. -/
def Dims.Within (d e : Dims) : Prop := d.w ≤ e.w ∧ d.h ≤ e.h

/-! ### Resolving a size -/

/-- Why `get_size` gives no size. -/
inductive SizeError where
  | upscaling
  | overflow
  deriving DecidableEq

/-- What `get_size` gives. -/
structure Resolved where
  w : ℕ
  h : ℕ
  reduce : ℕ
  redonly : Bool
  deriving DecidableEq

/-- How far one side is reached by halving. -/
structure Fit where
  reduce : ℕ
  exactMatch : Bool

/-- What the loop over one side leaves. -/
def fitAt (side n k : ℕ) : Fit := if side ⌈/⌉ 2 ^ k < n then ⟨k - 1, false⟩ else ⟨k, side ⌈/⌉ 2 ^ k = n⟩

/-- The loop over one side; its factor is an `int`. -/
def fit (side n left : ℕ) : Except SizeError Fit :=
  let k := halvings side n left 0
  if 30 < k then .error .overflow else .ok (fitAt side n k)

/-- How often two goes into a ratio, as a power. -/
def ratioLevel (r : ℚ) : ℕ → ℕ → ℕ
  | 0, k => k
  | left + 1, k => if 2 * 2 ^ k ≤ r then ratioLevel r left (k + 1) else k

/-- The level of a ratio, and whether it is hit. -/
def ratioFit (cap : Option ℕ) (r : ℚ) : ℕ × Bool :=
  let k := ratioLevel r (cap.getD ⌈r⌉₊) 0
  (k, decide (|2 ^ k - r| < 1 / 10 ^ 5))

/-- Refuse to enlarge. -/
def guardUpscaling (d : Dims) (upscaling : Bool) (r : Resolved) : Except SizeError Resolved :=
  if upscaling = false ∧ (d.w < r.w ∨ d.h < r.h) then .error .upscaling else .ok r

/-- The other side of `w,` or `,h`. -/
def otherSide (f : Fit) (side n other : ℕ) : ℕ :=
  if f.exactMatch then other ⌈/⌉ 2 ^ f.reduce else (other * n) ⌈/⌉ side

/-- A level is below the cap: `reduce < max_reduce`. -/
def Below (cap : Option ℕ) (k : ℕ) : Prop := ∀ m ∈ cap, k < m

instance (cap : Option ℕ) (k : ℕ) : Decidable (Below cap k) := inferInstanceAs (Decidable (∀ m ∈ cap, k < m))

/-- One side of `w,h`: enlarged, or the loop runs. -/
def fitSide (upscaling : Bool) (side n left : ℕ) : Except SizeError Fit :=
  if side < n then if upscaling then .ok ⟨0, true⟩ else .error .upscaling else fit side n left

/-- `w,h`: the height is bounded by the width. -/
def getSizeXy (cap : Option ℕ) (s : SizeParts) (d : Dims) : Except SizeError Resolved := do
  let fw ← fitSide s.upscaling d.w s.nx (cap.getD d.w)
  let fh ← fitSide s.upscaling d.h s.ny (if Below cap fw.reduce then d.h else 0)
  return ⟨s.nx, s.ny, min fw.reduce fh.reduce, fw.exactMatch && fh.exactMatch && decide (fw.reduce = fh.reduce)⟩

/-- `w,`. -/
def getSizeX (cap : Option ℕ) (s : SizeParts) (d : Dims) : Except SizeError Resolved := do
  let f ← fit d.w s.nx (cap.getD d.w)
  guardUpscaling d s.upscaling ⟨s.nx, otherSide f d.w s.nx d.h, f.reduce, f.exactMatch⟩

/-- `,h`. -/
def getSizeY (cap : Option ℕ) (s : SizeParts) (d : Dims) : Except SizeError Resolved := do
  let f ← fit d.h s.ny (cap.getD d.h)
  guardUpscaling d s.upscaling ⟨otherSide f d.h s.ny d.w, s.ny, f.reduce, f.exactMatch⟩

/-- `pct:p`. -/
def getSizePercents (cap : Option ℕ) (s : SizeParts) (d : Dims) : Except SizeError Resolved :=
  let f := ratioFit cap (100 / s.percent)
  guardUpscaling d s.upscaling ⟨⌈d.w * s.percent / 100⌉₊, ⌈d.h * s.percent / 100⌉₊, f.1, f.2⟩

/-- A side over `1 << n`; at 31 that is negative. -/
def shifted (side n : ℕ) : Except SizeError ℕ :=
  if n ≤ 30 then .ok (side ⌈/⌉ 2 ^ n) else if n = 31 ∧ side < 2 ^ 31 then .ok 0 else .error .overflow

/-- `red:n`. -/
def getSizeReduce (cap : Option ℕ) (s : SizeParts) (d : Dims) : Except SizeError Resolved :=
  if s.reduce = 0 then .ok ⟨d.w, d.h, 0, true⟩
  else do
    let r := s.reduce.toNat
    let w ← shifted d.w r
    let h ← shifted d.h r
    return ⟨w, h, cap.elim r (min r), false⟩

/-- `!w,h`. -/
def getSizeMaxdim (cap : Option ℕ) (s : SizeParts) (d : Dims) : Except SizeError Resolved :=
  let fx : ℚ := s.nx / d.w
  let fy : ℚ := s.ny / d.h
  if fx < fy then
    let f := ratioFit cap (d.w / s.nx)
    guardUpscaling d s.upscaling ⟨s.nx, ⌈d.h * fx⌉₊, f.1, f.2⟩
  else
    let f := ratioFit cap (d.h / s.ny)
    guardUpscaling d s.upscaling ⟨⌈d.w * fy⌉₊, s.ny, f.1, f.2⟩

/-- `get_size`, with the cap on the reduce level. -/
def getSize (cap : Option ℕ) (s : SizeParts) (d : Dims) : Except SizeError Resolved :=
  match s.kind with
  | .undefined => .ok ⟨0, 0, 0, false⟩
  | .full => .ok ⟨d.w, d.h, 0, true⟩
  | .pixelsXy => getSizeXy cap s d
  | .pixelsX => getSizeX cap s d
  | .pixelsY => getSizeY cap s d
  | .percents => getSizePercents cap s d
  | .reduce => getSizeReduce cap s d
  | .maxdim => getSizeMaxdim cap s d

/-- A size that a request can have: what it asks for is not zero, and a box is cut to `limitdim`. The grammar of
requests has no `red:n`. -/
def SizeParts.Valid (s : SizeParts) : Prop :=
  match s.kind with
  | .undefined | .reduce => False
  | .full => True
  | .pixelsXy => 0 < s.nx ∧ 0 < s.ny
  | .pixelsX => 0 < s.nx
  | .pixelsY => 0 < s.ny
  | .percents => 0 < s.percent
  | .maxdim => (0 < s.nx ∧ 0 < s.ny) ∧ s.nx ≤ limitdim ∧ s.ny ≤ limitdim

theorem parseSize_valid {s : Str} {p : SizeParts} (h : parseSize s = .ok p) (hk : p.kind ≠ .reduce) :
    SizeParts.Valid p := by
  cases parseSize_parsed h with
  | full => trivial
  | percents _ hp => exact hp
  | reduce _ hn => exact absurd rfl hk
  | pixelsX _ hx => exact hx
  | pixelsY _ hy => exact hy
  | pair _ exclamation hx hxl hy hyl =>
    cases exclamation with
    | false => exact ⟨hx, hy⟩
    | true => exact ⟨⟨hx, hy⟩, hxl, hyl⟩

/-! ### How far a side can be halved -/

/-- Halving comes out at the side asked for. -/
def Hits (side n : ℕ) : Prop := side ⌈/⌉ 2 ^ level side n = n

instance (side n : ℕ) : Decidable (Hits side n) := inferInstanceAs (Decidable (_ = _))

/-- How often a side can be halved. -/
def reach (side n : ℕ) : ℕ := if Hits side n then level side n else level side n - 1

/-- A level is within the cap. -/
def Allows (cap : Option ℕ) (k : ℕ) : Prop := ∀ m ∈ cap, k ≤ m

instance (cap : Option ℕ) (k : ℕ) : Decidable (Allows cap k) := inferInstanceAs (Decidable (∀ m ∈ cap, k ≤ m))

theorem level_le_side (side n : ℕ) : level side n ≤ side := by
  obtain ⟨_, hb, _⟩ := halvings_spec side n side 0
  rwa [zero_add] at hb

theorem reach_le_level (side n : ℕ) : reach side n ≤ level side n := by
  unfold reach
  split <;> omega

theorem level_le_reach (side n : ℕ) : level side n ≤ reach side n + 1 := by
  unfold reach
  split <;> omega

theorem reach_le_side (side n : ℕ) : reach side n ≤ side := le_trans (reach_le_level side n) (level_le_side side n)

variable {side n : ℕ}

theorem reach_of_hits (h : Hits side n) : reach side n = level side n := if_pos h

theorem reach_of_lt (h : side < n) : reach side n = 0 := by
  have hl : level side n ≤ 0 := (level_le_iff (by omega) 0).mpr (by rw [ceilDiv_two_pow_zero]; exact h.le)
  have := reach_le_level side n
  omega

variable (cap : Option ℕ)

theorem allows_iff (side n : ℕ) : Allows cap (level side n) ↔ level side n ≤ cap.getD side := by
  cases cap with
  | none => simp [Allows, level_le_side]
  | some m => simp [Allows]

theorem fitAt_eq (hn : 0 < n) (left : ℕ) :
    fitAt side n (halvings side n left 0) = ⟨min left (reach side n), decide (Hits side n ∧ level side n ≤ left)⟩ := by
  have hle := reach_le_level side n
  have hge := level_le_reach side n
  unfold fitAt
  rw [halvings_eq_min hn]
  by_cases hl : level side n ≤ left
  · rw [min_eq_right hl, min_eq_right (by omega), reach]
    by_cases hh : Hits side n
    · rw [if_neg (not_lt.mpr (hh : _ = _).ge), if_pos hh]
      rw [decide_eq_true (show side ⌈/⌉ 2 ^ level side n = n from hh), decide_eq_true (And.intro hh hl)]
    · have hf := (level_le_iff (a := side) hn (level side n)).mp le_rfl
      rw [if_pos (lt_of_le_of_ne hf hh), if_neg hh]
      simp [hh]
  · have hm : n < side ⌈/⌉ 2 ^ left := by
      by_contra hnt
      exact hl ((level_le_iff hn left).mpr (not_lt.mp hnt))
    rw [min_eq_left (by omega), if_neg (by omega), min_eq_left (by omega)]
    simp [hl, hm.ne']

theorem fit_eq (hn : 0 < n) (left : ℕ) :
    fit side n left = if min left (level side n) ≤ 30 then
      .ok ⟨min left (reach side n), decide (Hits side n ∧ level side n ≤ left)⟩ else .error .overflow := by
  rw [← fitAt_eq hn, ← halvings_eq_min hn, fit]
  split <;> split <;> first | rfl | omega

/-- The factor does not go beyond `2 ^ 30`. -/
def Bounded (side n : ℕ) : Prop := side ≤ 2 ^ 30 * n ∨ ∃ m ∈ cap, m ≤ 30

theorem bounded_iff (hn : 0 < n) : Bounded cap side n ↔ min (cap.getD side) (level side n) ≤ 30 := by
  have hl : level side n ≤ 30 ↔ side ≤ 2 ^ 30 * n := by rw [level_le_iff hn, ceilDiv_two_pow_le_iff]
  have hs := level_le_side side n
  cases cap with
  | none => simp [Bounded, hl, hs]
  | some m => simp [Bounded, hl, or_comm]

theorem fit_of_bounded (hn : 0 < n) (h : Bounded cap side n) :
    fit side n (cap.getD side) =
      .ok ⟨min (cap.getD side) (reach side n), decide (Hits side n ∧ Allows cap (level side n))⟩ := by
  rw [fit_eq hn, if_pos ((bounded_iff cap hn).mp h)]
  simp only [allows_iff]

theorem fit_of_not_bounded (hn : 0 < n) (h : ¬ Bounded cap side n) :
    fit side n (cap.getD side) = .error .overflow := by
  rw [fit_eq hn, if_neg (mt (bounded_iff cap hn).mpr h)]

/-! ### What a size asks for -/

/-- The other side: halved if this one is hit. -/
def otherOf (side n other : ℕ) : ℕ :=
  if Hits side n ∧ Allows cap (level side n) then other ⌈/⌉ 2 ^ level side n else (other * n) ⌈/⌉ side

theorem otherSide_fitAt (hn : 0 < n) (other : ℕ) :
    otherSide (fitAt side n (halvings side n (cap.getD side) 0)) side n other = otherOf cap side n other := by
  rw [fitAt_eq hn]
  unfold otherSide otherOf
  simp only [decide_eq_true_eq, allows_iff]
  split
  · next hh => rw [reach_of_hits hh.1, min_eq_right hh.2]
  · rfl

theorem otherSide_eq (hn : 0 < n) (other : ℕ) {f : Fit} (h : fit side n (cap.getD side) = .ok f) :
    otherSide f side n other = otherOf cap side n other := by
  rw [← otherSide_fitAt cap hn]
  simp only [fit] at h
  split at h <;> cases h
  rfl

theorem otherOf_le_zero (hn : 0 < n) (hs : 0 < side) (other : ℕ) :
    otherOf cap side n other ≤ otherOf (some 0) side n other := by
  unfold otherOf
  by_cases hz : Hits side n ∧ Allows (some 0) (level side n)
  · have ha : Allows cap (level side n) := fun m _ => le_trans (hz.2 0 rfl) (Nat.zero_le m)
    rw [if_pos hz, if_pos ⟨hz.1, ha⟩]
  · rw [if_neg hz]
    split
    · next hh => exact ceilDiv_two_pow_le_share hn hs hh.1
    · exact le_rfl

theorem otherOf_pos {other : ℕ} (hn : 0 < n) (hs : 0 < side) (ho : 0 < other) : 0 < otherOf cap side n other := by
  unfold otherOf
  split
  · exact ceilDiv_pos ho (by positivity)
  · exact ceilDiv_pos (Nat.mul_pos ho hn) hs

theorem otherOf_le {other : ℕ} (hs : 0 < side) (hle : n ≤ side) : otherOf cap side n other ≤ other := by
  unfold otherOf
  split
  · have h := ceilDiv_two_pow_antitone other (Nat.zero_le (level side n))
    simpa using h
  · rw [ceilDiv_le_iff_le_mul hs, Nat.mul_comm side]
    exact Nat.mul_le_mul_left other hle

/-- The best fit in a box. -/
def boxSides (nx ny : ℕ) (d : Dims) : ℕ × ℕ :=
  if (nx : ℚ) / d.w < ny / d.h then (nx, ⌈d.h * ((nx : ℚ) / d.w)⌉₊) else (⌈d.w * ((ny : ℚ) / d.h)⌉₊, ny)

/-- The sides that a request asks of an image. -/
def target (s : SizeParts) (d : Dims) : ℕ × ℕ :=
  match s.kind with
  | .undefined | .reduce => (0, 0)
  | .full => (d.w, d.h)
  | .pixelsXy => (s.nx, s.ny)
  | .pixelsX => (s.nx, otherOf cap d.w s.nx d.h)
  | .pixelsY => (otherOf cap d.h s.ny d.w, s.ny)
  | .percents => (⌈d.w * s.percent / 100⌉₊, ⌈d.h * s.percent / 100⌉₊)
  | .maxdim => boxSides s.nx s.ny d

/-- The width and the height of a resolved size. -/
def Resolved.sides (r : Resolved) : ℕ × ℕ := (r.w, r.h)

variable {cap} {d : Dims} {upscaling : Bool} {r : Resolved}

theorem guardUpscaling_eq_ok {r' : Resolved} :
    guardUpscaling d upscaling r = .ok r' ↔ (upscaling = true ∨ r.w ≤ d.w ∧ r.h ≤ d.h) ∧ r' = r := by
  unfold guardUpscaling
  split
  · next h =>
    have ha : ¬ (upscaling = true ∨ r.w ≤ d.w ∧ r.h ≤ d.h) := by
      rw [h.1]
      have := h.2
      simp only [Bool.false_eq_true, false_or]
      omega
    simp [ha]
  · next h =>
    have ha : upscaling = true ∨ r.w ≤ d.w ∧ r.h ≤ d.h := by
      cases upscaling <;> simp_all
    simp [ha, eq_comm]

variable {s : SizeParts}

theorem sides_of_getSizeXy (h : getSizeXy cap s d = .ok r) : r.sides = (s.nx, s.ny) := by
  obtain ⟨_, _, h⟩ := bind_eq_ok.mp h
  obtain ⟨_, _, h⟩ := bind_eq_ok.mp h
  cases h
  rfl

theorem sides_of_getSizeMaxdim (hk : s.kind = .maxdim) (h : getSizeMaxdim cap s d = .ok r) :
    r.sides = target cap s d := by
  unfold getSizeMaxdim at h
  unfold target
  simp only [hk, boxSides] at h ⊢
  split at h
  · next hw =>
    obtain ⟨_, rfl⟩ := guardUpscaling_eq_ok.mp h
    simp [Resolved.sides, hw]
  · next hh =>
    obtain ⟨_, rfl⟩ := guardUpscaling_eq_ok.mp h
    simp [Resolved.sides, hh]

theorem sides_of_getSize (hv : SizeParts.Valid s) (h : getSize cap s d = .ok r) : r.sides = target cap s d := by
  unfold getSize at h
  unfold SizeParts.Valid at hv
  cases hk : s.kind <;> simp only [hk] at hv h
  case full =>
    cases h
    rw [target, hk, Resolved.sides]
  case pixelsXy => rw [sides_of_getSizeXy h, target, hk]
  case pixelsX =>
    obtain ⟨f, hf, h⟩ := bind_eq_ok.mp h
    obtain ⟨_, rfl⟩ := guardUpscaling_eq_ok.mp h
    rw [Resolved.sides, target, hk, otherSide_eq cap hv d.h hf]
  case pixelsY =>
    obtain ⟨f, hf, h⟩ := bind_eq_ok.mp h
    obtain ⟨_, rfl⟩ := guardUpscaling_eq_ok.mp h
    rw [Resolved.sides, target, hk, otherSide_eq cap hv d.w hf]
  case percents =>
    obtain ⟨_, rfl⟩ := guardUpscaling_eq_ok.mp h
    rw [Resolved.sides, target, hk]
  case maxdim => exact sides_of_getSizeMaxdim hk h

variable (cap)

theorem target_pos (hv : SizeParts.Valid s) (d : Dims) : 0 < (target cap s d).1 ∧ 0 < (target cap s d).2 := by
  have hw : (0 : ℚ) < d.w := by exact_mod_cast d.w_pos
  have hh : (0 : ℚ) < d.h := by exact_mod_cast d.h_pos
  unfold target
  unfold SizeParts.Valid at hv
  cases hk : s.kind <;> simp only [hk] at hv ⊢
  case full => exact ⟨d.w_pos, d.h_pos⟩
  case pixelsXy => exact hv
  case pixelsX => exact ⟨hv, otherOf_pos cap hv d.w_pos d.h_pos⟩
  case pixelsY => exact ⟨otherOf_pos cap hv d.h_pos d.w_pos, hv⟩
  case percents => exact ⟨Nat.ceil_pos.mpr (by positivity), Nat.ceil_pos.mpr (by positivity)⟩
  case maxdim =>
    have hx : (0 : ℚ) < s.nx := by exact_mod_cast hv.1.1
    have hy : (0 : ℚ) < s.ny := by exact_mod_cast hv.1.2
    unfold boxSides
    split
    · exact ⟨hv.1.1, Nat.ceil_pos.mpr (by positivity)⟩
    · exact ⟨Nat.ceil_pos.mpr (by positivity), hv.1.2⟩

theorem target_le_zero (hv : SizeParts.Valid s) (d : Dims) : target cap s d ≤ target (some 0) s d := by
  unfold target
  unfold SizeParts.Valid at hv
  cases hk : s.kind <;> simp only [hk] at hv ⊢
  case pixelsX => exact ⟨le_rfl, otherOf_le_zero cap hv d.w_pos d.h⟩
  case pixelsY => exact ⟨otherOf_le_zero cap hv d.h_pos d.w, le_rfl⟩
  all_goals exact le_rfl

/-! ### Sizes that are accepted -/

/-- A size that enlarges nothing, or may. -/
def SizeParts.Accepted (s : SizeParts) (d : Dims) : Prop :=
  s.upscaling = true ∨
    match s.kind with
    | .pixelsXy => s.nx ≤ d.w ∧ s.ny ≤ d.h
    | .pixelsX => s.nx ≤ d.w
    | .pixelsY => s.ny ≤ d.h
    | .percents => s.percent ≤ 100
    | .maxdim => s.nx ≤ d.w ∨ s.ny ≤ d.h
    | _ => True

/-- No factor overflows. The loop over the height of `w,h` does not run if the width is halved up to the cap. -/
def SizeParts.Defined (cap : Option ℕ) (s : SizeParts) (d : Dims) : Prop :=
  match s.kind with
  | .pixelsXy => Bounded cap d.w s.nx ∧ (d.h ≤ 2 ^ 30 * s.ny ∨ ¬ Below cap (reach d.w s.nx))
  | .pixelsX => Bounded cap d.w s.nx
  | .pixelsY => Bounded cap d.h s.ny
  | _ => True

theorem SizeParts.Accepted.mono {e : Dims} (h : SizeParts.Accepted s d) (hw : d.Within e) :
    SizeParts.Accepted s e := by
  obtain ⟨hw, hh⟩ := hw
  refine h.imp_right fun h => ?_
  cases hk : s.kind <;> simp only [hk] at h ⊢
  case pixelsXy => exact ⟨h.1.trans hw, h.2.trans hh⟩
  case pixelsX => exact h.trans hw
  case pixelsY => exact h.trans hh
  case percents => exact h
  case maxdim => exact h.imp (·.trans hw) (·.trans hh)

theorem below_min_reach (side n : ℕ) :
    Below cap (min (cap.getD side) (reach side n)) ↔ Below cap (reach side n) := by
  cases cap <;> simp [Below]

theorem fitSide_eq_ok (upscaling : Bool) (side : ℕ) (hn : 0 < n) (left : ℕ) :
    (∃ f, fitSide upscaling side n left = .ok f) ↔ (upscaling = true ∨ n ≤ side) ∧ min left (level side n) ≤ 30 := by
  unfold fitSide
  by_cases hs : side < n
  · have hl : level side n ≤ 0 := (level_le_iff hn 0).mpr (by rw [ceilDiv_two_pow_zero]; exact hs.le)
    rw [if_pos hs]
    cases upscaling
    · simp [not_le.mpr hs]
    · simp only [if_true, true_or, true_and]
      exact iff_of_true ⟨_, rfl⟩ (by omega)
  · rw [if_neg hs, fit_eq hn]
    split
    · next h => simp [not_lt.mp hs, h]
    · next h => simp [h]

theorem fitSide_reduce {left : ℕ} {f : Fit} (hn : 0 < n) (h : fitSide upscaling side n left = .ok f) :
    f.reduce = min left (reach side n) := by
  unfold fitSide at h
  split at h
  · next hs =>
    rw [reach_of_lt hs, Nat.min_zero]
    split at h <;> cases h
    rfl
  · rw [fit_eq hn] at h
    split at h <;> cases h
    rfl

theorem getSizeXy_ok_iff (hx : 0 < s.nx) (hy : 0 < s.ny) (hk : s.kind = .pixelsXy) :
    (∃ r, getSizeXy cap s d = .ok r) ↔ SizeParts.Accepted s d ∧ SizeParts.Defined cap s d := by
  have hw := fitSide_eq_ok s.upscaling d.w hx (cap.getD d.w)
  have hh := fitSide_eq_ok s.upscaling d.h hy
  rw [← bounded_iff cap hx] at hw
  have hl : level d.h s.ny ≤ 30 ↔ d.h ≤ 2 ^ 30 * s.ny := by rw [level_le_iff hy, ceilDiv_two_pow_le_iff]
  have hs := level_le_side d.h s.ny
  have hb : min (if Below cap (reach d.w s.nx) then d.h else 0) (level d.h s.ny) ≤ 30 ↔
      d.h ≤ 2 ^ 30 * s.ny ∨ ¬ Below cap (reach d.w s.nx) := by
    by_cases hbl : Below cap (reach d.w s.nx)
    · rw [if_pos hbl, min_eq_right hs, hl]
      simp [hbl]
    · simp [hbl]
  simp only [SizeParts.Accepted, SizeParts.Defined, hk, ← hb]
  constructor
  · rintro ⟨r, h⟩
    obtain ⟨fw, hfw, h⟩ := bind_eq_ok.mp h
    obtain ⟨fh, hfh, -⟩ := bind_eq_ok.mp h
    rw [fitSide_reduce hx hfw] at hfh
    simp only [below_min_reach] at hfh
    obtain ⟨ha, hbw⟩ := hw.mp ⟨fw, hfw⟩
    obtain ⟨ha', hbh⟩ := (hh _).mp ⟨fh, hfh⟩
    exact ⟨by tauto, hbw, hbh⟩
  · rintro ⟨ha, hbw, hbh⟩
    obtain ⟨fw, hfw⟩ := hw.mpr ⟨by tauto, hbw⟩
    obtain ⟨fh, hfh⟩ := (hh _).mpr ⟨by tauto, hbh⟩
    refine ⟨_, bind_eq_ok.mpr ⟨fw, hfw, bind_eq_ok.mpr ⟨fh, ?_, rfl⟩⟩⟩
    rw [fitSide_reduce hx hfw]
    simpa only [below_min_reach] using hfh

theorem guardUpscaling_ok_iff :
    (∃ r', guardUpscaling d upscaling r = .ok r') ↔ upscaling = true ∨ (r.w ≤ d.w ∧ r.h ≤ d.h) := by
  simp only [guardUpscaling_eq_ok, exists_and_left, exists_eq, and_true]

theorem ceil_mul_le_self_iff {q : ℚ} (hs : 0 < side) : ⌈side * q⌉₊ ≤ side ↔ q ≤ 1 := by
  have hp : (0 : ℚ) < side := by exact_mod_cast hs
  rw [Nat.ceil_le, mul_le_iff_le_one_right hp]

theorem getSizeMaxdim_ok_iff (hk : s.kind = .maxdim) :
    (∃ r, getSizeMaxdim cap s d = .ok r) ↔ SizeParts.Accepted s d := by
  have hw : (0 : ℚ) < d.w := by exact_mod_cast d.w_pos
  have hh : (0 : ℚ) < d.h := by exact_mod_cast d.h_pos
  have hx : s.nx ≤ d.w ↔ (s.nx : ℚ) / d.w ≤ 1 := by rw [div_le_one hw]; exact_mod_cast Iff.rfl
  have hy : s.ny ≤ d.h ↔ (s.ny : ℚ) / d.h ≤ 1 := by rw [div_le_one hh]; exact_mod_cast Iff.rfl
  unfold getSizeMaxdim
  simp only [SizeParts.Accepted, hk, hx, hy]
  split
  · next hlt =>
    simp only [guardUpscaling_ok_iff, ceil_mul_le_self_iff d.h_pos, hx]
    refine or_congr_right ⟨fun h => Or.inl h.1, fun h => ?_⟩
    have := h.elim id hlt.le.trans
    exact ⟨this, this⟩
  · next hge =>
    simp only [guardUpscaling_ok_iff, ceil_mul_le_self_iff d.w_pos, hy]
    refine or_congr_right ⟨fun h => Or.inr h.1, fun h => ?_⟩
    have := h.elim (not_lt.mp hge).trans id
    exact ⟨this, this⟩

theorem getSize_ok_iff (hv : SizeParts.Valid s) :
    (∃ r, getSize cap s d = .ok r) ↔ SizeParts.Accepted s d ∧ SizeParts.Defined cap s d := by
  unfold getSize
  unfold SizeParts.Valid at hv
  cases hk : s.kind <;> simp only [hk] at hv ⊢
  case full => simp [SizeParts.Accepted, SizeParts.Defined, hk]
  case pixelsXy => exact getSizeXy_ok_iff cap hv.1 hv.2 hk
  case pixelsX =>
    simp only [SizeParts.Accepted, SizeParts.Defined, hk, getSizeX]
    by_cases hb : Bounded cap d.w s.nx
    · simp only [fit_of_bounded cap hv hb, bind, Except.bind, guardUpscaling_ok_iff, hb, and_true]
      rw [otherSide_eq cap hv d.h (fit_of_bounded cap hv hb)]
      exact or_congr_right ⟨fun h => h.1, fun h => ⟨h, otherOf_le cap d.w_pos h⟩⟩
    · simp [fit_of_not_bounded cap hv hb, bind, Except.bind, hb]
  case pixelsY =>
    simp only [SizeParts.Accepted, SizeParts.Defined, hk, getSizeY]
    by_cases hb : Bounded cap d.h s.ny
    · simp only [fit_of_bounded cap hv hb, bind, Except.bind, guardUpscaling_ok_iff, hb, and_true]
      rw [otherSide_eq cap hv d.w (fit_of_bounded cap hv hb)]
      exact or_congr_right ⟨fun h => h.2, fun h => ⟨otherOf_le cap d.h_pos h, h⟩⟩
    · simp [fit_of_not_bounded cap hv hb, bind, Except.bind, hb]
  case percents =>
    have hp : s.percent / 100 ≤ 1 ↔ s.percent ≤ 100 := div_le_one (by norm_num)
    simp only [SizeParts.Accepted, SizeParts.Defined, hk, getSizePercents, guardUpscaling_ok_iff, mul_div_assoc,
      ceil_mul_le_self_iff d.w_pos, ceil_mul_le_self_iff d.h_pos, hp, and_self, and_true]
  case maxdim =>
    rw [getSizeMaxdim_ok_iff cap hk]
    simp [SizeParts.Defined, hk]

/-! ### Best fit in a box -/

/-- The largest in the box, in proportion. -/
def BestFit (w h : ℕ) (d : Dims) (w' h' : ℕ) : Prop :=
  (1 ≤ w' ∧ w' ≤ w) ∧ (1 ≤ h' ∧ h' ≤ h) ∧
    (w' = w ∧ h' = (d.h * w) ⌈/⌉ d.w ∨ h' = h ∧ w' = (d.w * h) ⌈/⌉ d.h)

theorem ceil_mul_div_eq (other n : ℕ) (hs : 0 < side) : ⌈other * ((n : ℚ) / side)⌉₊ = (other * n) ⌈/⌉ side := by
  rw [← ceil_div_eq_ceilDiv _ hs, ← mul_div_assoc]
  push_cast
  rfl

theorem boxSides_eq (nx ny : ℕ) (d : Dims) :
    boxSides nx ny d = if nx * d.h < ny * d.w then (nx, (d.h * nx) ⌈/⌉ d.w) else ((d.w * ny) ⌈/⌉ d.h, ny) := by
  have hw : (0 : ℚ) < d.w := by exact_mod_cast d.w_pos
  have hh : (0 : ℚ) < d.h := by exact_mod_cast d.h_pos
  have hb : (nx : ℚ) / d.w < ny / d.h ↔ nx * d.h < ny * d.w := by
    rw [div_lt_div_iff₀ hw hh]
    exact_mod_cast Iff.rfl
  simp only [boxSides, hb, ceil_mul_div_eq _ _ d.w_pos, ceil_mul_div_eq _ _ d.h_pos]

theorem bestFit_target (hk : s.kind = .maxdim) (hx : 0 < s.nx) (hy : 0 < s.ny)
    (d : Dims) : BestFit s.nx s.ny d (target cap s d).1 (target cap s d).2 := by
  have hw : (0 : ℚ) < d.w := by exact_mod_cast d.w_pos
  have hh : (0 : ℚ) < d.h := by exact_mod_cast d.h_pos
  unfold target
  simp only [hk, boxSides, ceil_mul_div_eq _ _ d.w_pos, ceil_mul_div_eq _ _ d.h_pos]
  split
  · next hwd =>
    rw [div_lt_div_iff₀ hw hh] at hwd
    have hw' : d.h * s.nx ≤ d.w * s.ny := by
      have : s.nx * d.h < s.ny * d.w := by exact_mod_cast hwd
      nlinarith
    refine ⟨⟨hx, le_rfl⟩, ⟨ceilDiv_pos (Nat.mul_pos d.h_pos hx) d.w_pos, ?_⟩, Or.inl ⟨rfl, rfl⟩⟩
    exact (ceilDiv_le_iff_le_mul d.w_pos).mpr hw'
  · next hhg =>
    rw [not_lt, div_le_div_iff₀ hh hw] at hhg
    have hh' : d.w * s.ny ≤ d.h * s.nx := by
      have : s.ny * d.w ≤ s.nx * d.h := by exact_mod_cast hhg
      nlinarith
    refine ⟨⟨ceilDiv_pos (Nat.mul_pos d.w_pos hy) d.h_pos, ?_⟩, ⟨hy, le_rfl⟩, Or.inr ⟨rfl, rfl⟩⟩
    exact (ceilDiv_le_iff_le_mul d.h_pos).mpr hh'

theorem guardUpscaling_eq_error_iff :
    guardUpscaling d upscaling r = .error .upscaling ↔ upscaling = false ∧ (d.w < r.w ∨ d.h < r.h) := by
  unfold guardUpscaling
  split
  · next h => exact iff_of_true rfl h
  · next h => exact iff_of_false (by simp) h

theorem getSizeMaxdim_error_iff (hk : s.kind = .maxdim) (d : Dims) :
    getSize cap s d = .error .upscaling ↔
      s.upscaling = false ∧ (d.w < (target cap s d).1 ∨ d.h < (target cap s d).2) := by
  unfold getSize target
  simp only [hk, getSizeMaxdim, boxSides]
  split <;> exact guardUpscaling_eq_error_iff

/-- A request for the best fit in a box. -/
def BoxText (str : Str) (upscaling : Bool) (w h : ℕ) : Prop :=
  ∃ width height, str = pairText upscaling true width height ∧ parseDigits width = some w ∧
    parseDigits height = some h

theorem parseSize_boxText {str : Str} {w h : ℕ} (hb : BoxText str upscaling w h) (hp : parseSize str = .ok s) :
    s = ⟨.maxdim, upscaling, 0, 0, min w limitdim, min h limitdim⟩ ∧ 0 < s.nx ∧ 0 < s.ny := by
  obtain ⟨width, height, rfl, hw, hh⟩ := hb
  obtain ⟨hwd, rfl⟩ := parseDigits_eq_some.mp hw
  obtain ⟨hhg, rfl⟩ := parseDigits_eq_some.mp hh
  rw [parseSize_pairText _ _ (mem_runs.mp hwd).2, parseSizePair_both _ _ hwd hhg] at hp
  split at hp
  · cases hp
  · split at hp
    · cases hp
    · next hz =>
      cases hp
      obtain ⟨hx, hy⟩ := not_or.mp hz
      exact ⟨rfl, cap_pos hx, cap_pos hy⟩

end Sipi.Geometry
