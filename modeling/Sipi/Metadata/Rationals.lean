import Sipi.Geometry.Rotation
import Sipi.Theory.FixedPoint

/-!
# EXIF rationals

EXIF has fractions of two 32-bit integers where the program has numbers of type `float`.

## Honest scope

Products are exact. One of type `float` that is not whole is small.
-/

namespace Sipi.Metadata

open Sipi.Theory Sipi.Geometry

/-! ### The functions -/

/-- `INT_MIN`. -/
def intMin : ℤ := -2147483648

/-- `INT_MAX`. -/
def intMax : ℤ := 2147483647

/-- `UINT_MAX`. -/
def uintMax : ℤ := 4294967295

/-- `std::trunc`. -/
def truncate (x : ℚ) : ℤ := if 0 ≤ x then ⌊x⌋ else ⌈x⌉

/-- The numerator for this denominator is in range. -/
def Fits (lo hi : ℤ) (value : ℚ) (denominator : ℕ) : Prop := lo ≤ value * denominator ∧ value * denominator ≤ hi

instance (lo hi : ℤ) (value : ℚ) (denominator : ℕ) : Decidable (Fits lo hi value denominator) :=
  inferInstanceAs (Decidable (_ ∧ _))

/-- The loop over the denominators. -/
def shrink (lo hi : ℤ) (value : ℚ) (denominator : ℕ) : ℕ :=
  if ¬ Fits lo hi value denominator ∧ 1 < denominator then shrink lo hi value (denominator / 10) else denominator
termination_by denominator

/-- A number as a fraction. -/
def fraction (lo hi : ℤ) (value : ℚ) : ℤ × ℤ :=
  let denominator := shrink lo hi value hi.toNat
  let scaled : ℚ := value * denominator
  let scaled : ℚ := if hi < scaled then hi else scaled
  let scaled : ℚ := if scaled < lo then lo else scaled
  let numerator := halfAway scaled
  (if numerator = 0 then if 0 < value then 1 else -1 else numerator, if denominator < 1 then 1 else denominator)

/-- `Exif::toRational`. -/
def toRational : Single → ℤ × ℤ
  | .finite value _ =>
    if value = 0 then (0, 1)
    else if (truncate value : ℚ) = value ∧ intMin ≤ value ∧ value ≤ intMax then (truncate value, 1)
    else fraction intMin intMax value
  | .inf _ => (0, 1)
  | .nan => (0, 1)

/-- What `toURational` throws. -/
inductive RationalError where
  | nonFinite
  | negative
  deriving DecidableEq

/-- `Exif::toURational`. -/
def toURational : Single → Except RationalError (ℤ × ℤ)
  | .finite value _ =>
    if value < 0 then .error .negative
    else if value = 0 then .ok (0, 1)
    else if (truncate value : ℚ) = value ∧ value ≤ uintMax then .ok (truncate value, 1)
    else .ok (fraction 0 uintMax value)
  | .inf _ => .error .nonFinite
  | .nan => .error .nonFinite

theorem abs_halfAway_sub_le (x : ℚ) : |(halfAway x : ℚ) - x| ≤ 1 / 2 := by
  rw [abs_le, halfAway]
  split_ifs with hx
  · have hle := Int.floor_le (x + 1 / 2)
    have hlt := Int.lt_floor_add_one (x + 1 / 2)
    constructor <;> linarith
  · have hle := Int.le_ceil (x - 1 / 2)
    have hlt := Int.ceil_lt_add_one (x - 1 / 2)
    constructor <;> linarith

theorem halfAway_mem {lo hi : ℤ} {x : ℚ} (hlo : (lo : ℚ) ≤ x) (hhi : x ≤ hi) :
    lo ≤ halfAway x ∧ halfAway x ≤ hi := by
  obtain ⟨hb, ha⟩ := abs_le.1 (abs_halfAway_sub_le x)
  constructor
  · have hc : (lo : ℚ) < halfAway x + 1 := by linarith
    exact Int.lt_add_one_iff.1 (by exact_mod_cast hc)
  · have hc : (halfAway x : ℚ) < hi + 1 := by linarith
    exact Int.lt_add_one_iff.1 (by exact_mod_cast hc)

theorem halfAway_sign {x : ℚ} (h : halfAway x ≠ 0) : (0 < halfAway x ↔ 0 < x) ∧ (halfAway x < 0 ↔ x < 0) := by
  rcases lt_or_ge x 0 with hng | hn
  · have hl : (halfAway x : ℚ) < 1 := by linarith [(abs_le.1 (abs_halfAway_sub_le x)).2]
    have hin : halfAway x < 1 := by exact_mod_cast hl
    exact ⟨iff_of_false (by omega) hng.not_gt, iff_of_true (by omega) hng⟩
  · have hr := halfAway_nonneg hn
    have hp : 0 < x := by
      rcases hn.eq_or_lt with rfl | hlt
      · exact absurd (by simpa using halfAway_natCast 0) h
      · exact hlt
    exact ⟨iff_of_true (by omega) hp, iff_of_false (by omega) hn.not_gt⟩

theorem truncate_intCast (n : ℤ) : truncate n = n := by
  unfold truncate
  split_ifs <;> simp

theorem truncate_eq_iff (x : ℚ) : (truncate x : ℚ) = x ↔ ∃ n : ℤ, x = n := by
  constructor
  · exact fun h => ⟨_, h.symm⟩
  · rintro ⟨n, rfl⟩
    rw [truncate_intCast]

theorem abs_le_of_not_whole {f : ℚ} (hf : single.Mem f) (h : ¬ ∃ n : ℤ, f = n) : |f| ≤ 2 ^ 23 := by
  have hl : ∀ g : ℚ, single.Mem g → 2 ^ 23 < g → ∃ n : ℤ, g = n := by
    intro g hg hlt
    obtain ⟨n, hn⟩ := Format.exists_eq_mul_of_lt hg (k := 0) (by norm_num [single]; linarith)
    exact ⟨n, by simpa using hn⟩
  rw [abs_le]
  constructor
  · by_contra hlt
    obtain ⟨m, e, hm, he, hf⟩ := hf
    obtain ⟨n, hn⟩ := hl (-f) ⟨-m, e, by rwa [abs_neg], he, by rw [hf]; push_cast; ring⟩ (by linarith)
    exact h ⟨-n, by push_cast; linarith⟩
  · by_contra hlt
    exact h (hl f hf (not_le.1 hlt))

section
variable {lo hi : ℤ} {value : ℚ}

theorem shrink_of_stop {denominator : ℕ} (h : Fits lo hi value denominator ∨ denominator ≤ 1) :
    shrink lo hi value denominator = denominator := by
  rw [shrink, if_neg]
  rintro ⟨hn, hlt⟩
  exact h.elim hn hlt.not_ge

theorem shrink_of_step {denominator : ℕ} (h : ¬ Fits lo hi value denominator) (hlt : 1 < denominator) :
    shrink lo hi value denominator = shrink lo hi value (denominator / 10) := by
  rw [shrink, if_pos ⟨h, hlt⟩]

theorem shrink_le (lo hi : ℤ) (value : ℚ) (denominator : ℕ) : shrink lo hi value denominator ≤ denominator := by
  induction denominator using Nat.strongRecOn with
  | ind d ih =>
    by_cases h : Fits lo hi value d ∨ d ≤ 1
    · rw [shrink_of_stop h]
    · rw [not_or, not_le] at h
      rw [shrink_of_step h.1 h.2]
      exact (ih _ (by omega)).trans (Nat.div_le_self _ _)

theorem shrink_fits (hfr : ∀ d : ℕ, ¬ Fits lo hi value d → 10 ≤ d) {denominator : ℕ} (hp : 1 ≤ denominator) :
    1 ≤ shrink lo hi value denominator ∧ Fits lo hi value (shrink lo hi value denominator) := by
  induction denominator using Nat.strongRecOn with
  | ind d ih =>
    by_cases h : Fits lo hi value d
    · rw [shrink_of_stop (.inl h)]
      exact ⟨hp, h⟩
    · have ht := hfr d h
      rw [shrink_of_step h (by omega)]
      exact ih _ (by omega) (by omega)

theorem shrink_eq_zero (hn : ∀ d : ℕ, 1 < d → ¬ Fits lo hi value d) (k : ℕ) {denominator : ℕ}
    (hfr : 1 < denominator / 10 ^ k) (hl : denominator / 10 ^ k < 10) : shrink lo hi value denominator = 0 := by
  induction k generalizing denominator with
  | zero =>
    rw [pow_zero, Nat.div_one] at hfr hl
    rw [shrink_of_step (hn _ hfr) hfr, Nat.div_eq_of_lt hl, shrink_of_stop (.inr (by omega))]
  | succ k ih =>
    rw [pow_succ', ← Nat.div_div_eq_div_mul] at hfr hl
    have hlt : 1 < denominator := hfr.trans_le ((Nat.div_le_self _ _).trans (Nat.div_le_self _ _))
    rw [shrink_of_step (hn _ hlt) hlt]
    exact ih hfr hl

/-- What a fraction for a number should be. -/
structure Approximates (lo hi : ℤ) (f : ℚ) (r : ℤ × ℤ) : Prop where
  denominator : 1 ≤ r.2 ∧ r.2 ≤ hi
  numerator : lo ≤ r.1 ∧ r.1 ≤ hi
  positive : 0 < r.1 ↔ 0 < f
  negative : r.1 < 0 ↔ f < 0
  near : |f| ≤ hi → |(r.1 : ℚ) / r.2 - f| ≤ 1 / (2 * r.2) ∨ (f ≠ 0 ∧ halfAway (f * r.2) = 0 ∧ |r.1| = 1)
  above : hi < f → r = (hi, 1)
  below : f < lo → r = (lo, 1)

theorem approximates_whole {n : ℤ} (hlo : lo ≤ n) (hhi : n ≤ hi) (ho : 1 ≤ hi) : Approximates lo hi n (n, 1) where
  denominator := ⟨le_rfl, ho⟩
  numerator := ⟨hlo, hhi⟩
  positive := by rw [Int.cast_pos]
  negative := by rw [Int.cast_lt_zero]
  near _ := .inl (by simp)
  above h := absurd (by exact_mod_cast h : hi < n) (not_lt.2 hhi)
  below h := absurd (by exact_mod_cast h : n < lo) (not_lt.2 hlo)

theorem fraction_eq (hp : 1 ≤ shrink lo hi value hi.toNat) (hft : Fits lo hi value (shrink lo hi value hi.toNat)) :
    fraction lo hi value =
      (if halfAway (value * shrink lo hi value hi.toNat) = 0 then if 0 < value then 1 else -1
        else halfAway (value * shrink lo hi value hi.toNat), (shrink lo hi value hi.toNat : ℤ)) := by
  simp only [fraction, if_neg (not_lt.2 hft.2), if_neg (not_lt.2 hft.1), if_neg (not_lt.2 hp)]

theorem fraction_approximates (hfr : ∀ d : ℕ, ¬ Fits lo hi value d → 10 ≤ d) (ho : 1 ≤ hi) (hne : value ≠ 0)
    (hs : value < 0 → lo ≤ -1) (hlo : lo ≤ 0) (hr : lo ≤ value ∧ value ≤ hi) :
    Approximates lo hi value (fraction lo hi value) := by
  obtain ⟨hps, hft⟩ := shrink_fits hfr (show 1 ≤ hi.toNat by omega)
  have hle := shrink_le lo hi value hi.toNat
  rw [fraction_eq hps hft]
  generalize shrink lo hi value hi.toNat = d at *
  have hd : (0 : ℚ) < d := by exact_mod_cast hps
  obtain ⟨hnl, hnh⟩ := halfAway_mem hft.1 hft.2
  have hnr := abs_halfAway_sub_le (value * d)
  have hp : 0 < value * d ↔ 0 < value := mul_pos_iff_of_pos_right hd
  have hn : value * d < 0 ↔ value < 0 := by simp [mul_neg_iff, hd, hd.not_gt]
  refine ⟨⟨by dsimp only; omega, by dsimp only; omega⟩, ?_, ?_, ?_, fun _ => ?_,
    fun h => absurd h (not_lt.2 hr.2), fun h => absurd h (not_lt.2 hr.1)⟩
  · dsimp only
    split_ifs with hz hv
    · omega
    · have := hs (lt_of_le_of_ne (not_lt.1 hv) hne)
      omega
    · exact ⟨hnl, hnh⟩
  · dsimp only
    split_ifs with hz hv
    · simp [hv]
    · simp [hv]
    · rw [(halfAway_sign hz).1, hp]
  · dsimp only
    split_ifs with hz hv
    · exact iff_of_false (by norm_num) hv.not_gt
    · exact iff_of_true (by norm_num) (lt_of_le_of_ne (not_lt.1 hv) hne)
    · rw [(halfAway_sign hz).2, hn]
  · dsimp only
    split_ifs with hz hv
    · exact .inr ⟨hne, by exact_mod_cast hz, rfl⟩
    · exact .inr ⟨hne, by exact_mod_cast hz, rfl⟩
    · left
      push_cast
      rw [div_sub' hd.ne', abs_div, abs_of_pos hd, div_le_div_iff₀ hd (by positivity), mul_comm (d : ℚ) value]
      nlinarith

theorem fraction_of_never (hn : ∀ d : ℕ, 1 < d → ¬ Fits lo hi value d) (k : ℕ) (hlo : lo ≤ 0)
    (hfr : 1 < hi.toNat / 10 ^ k) (hl : hi.toNat / 10 ^ k < 10) :
    fraction lo hi value = (if 0 < value then 1 else -1, 1) := by
  have hz := shrink_eq_zero hn k hfr hl
  have hhi : ¬ ((hi : ℚ) < 0) := by
    rw [Int.cast_lt_zero]
    intro hng
    rw [Int.toNat_of_nonpos hng.le] at hfr
    simp at hfr
  have hl' : ¬ ((0 : ℚ) < lo) := by
    rw [Int.cast_pos]
    omega
  simp only [fraction, hz, Nat.cast_zero, mul_zero, if_neg hhi, if_neg hl']
  norm_num [halfAway]

end

/-! ### Which numbers are right -/

section
variable {f : ℚ} (hf : single.Mem f ∧ |f| < 2 ^ single.limit)

theorem ten_le_of_not_fits {lo hi : ℤ} (hs : |f| ≤ 2 ^ 23) (hhi : intMax ≤ hi)
    (hlo : lo ≤ intMin ∨ (lo = 0 ∧ 0 ≤ f)) (d : ℕ) (h : ¬ Fits lo hi f d) : 10 ≤ d := by
  by_contra hl
  have hd : (d : ℚ) ≤ 9 := by exact_mod_cast (by omega : d ≤ 9)
  have hd0 : (0 : ℚ) ≤ d := Nat.cast_nonneg d
  have hp : |f * d| ≤ 2 ^ 23 * 9 := by
    rw [abs_mul, abs_of_nonneg hd0]
    exact mul_le_mul hs hd hd0 (by norm_num)
  obtain ⟨hb, ha⟩ := abs_le.1 hp
  have hm : (intMax : ℚ) ≤ hi := by exact_mod_cast hhi
  refine h ⟨?_, by norm_num [intMax] at hm; linarith⟩
  rcases hlo with hmn | ⟨rfl, hn⟩
  · have hc : (lo : ℚ) ≤ intMin := by exact_mod_cast hmn
    norm_num [intMin] at hc
    linarith
  · rw [Int.cast_zero]
    exact mul_nonneg hn hd0

theorem toRational_of_mem (hr : intMin ≤ f ∧ f ≤ intMax) :
    Approximates intMin intMax f (toRational (.finite f hf)) := by
  have hb : intMin ≤ 0 ∧ (0 : ℤ) ≤ intMax ∧ 1 ≤ intMax ∧ intMin ≤ -1 := by decide
  rw [toRational]
  split_ifs with hz hw
  · subst hz
    exact_mod_cast approximates_whole hb.1 hb.2.1 hb.2.2.1
  · obtain ⟨n, rfl⟩ := (truncate_eq_iff f).1 hw.1
    rw [truncate_intCast]
    exact approximates_whole (by exact_mod_cast hr.1) (by exact_mod_cast hr.2) hb.2.2.1
  · have hn : ¬ ∃ n : ℤ, f = n := fun h => hw ⟨(truncate_eq_iff f).2 h, hr⟩
    have hfr := ten_le_of_not_fits (abs_le_of_not_whole hf.1 hn) le_rfl (.inl le_rfl)
    exact fraction_approximates hfr hb.2.2.1 hz (fun _ => hb.2.2.2) hb.1 hr

theorem toRational_of_not_mem (ho : ¬ (intMin ≤ f ∧ f ≤ intMax)) :
    toRational (.finite f hf) = (if 0 < f then 1 else -1, 1) := by
  have hne : f ≠ 0 := by
    rintro rfl
    exact ho (by norm_num [intMin, intMax])
  rw [toRational, if_neg hne, if_neg fun h => ho h.2]
  refine fraction_of_never (fun d hd hft => ?_) 9 (by decide) (by decide) (by decide)
  have ht : (2 : ℚ) ≤ d := by exact_mod_cast hd
  obtain ⟨hlo, hhi⟩ := hft
  rw [not_and_or, not_le, not_le] at ho
  norm_num [intMin, intMax] at ho hlo hhi
  rcases ho with hb | ha
  · nlinarith
  · nlinarith

theorem toURational_of_mem (hr : 0 ≤ f ∧ f ≤ uintMax) :
    ∃ r, toURational (.finite f hf) = .ok r ∧ Approximates 0 uintMax f r := by
  have hb : (0 : ℤ) ≤ uintMax ∧ 1 ≤ uintMax ∧ intMax ≤ uintMax := by decide
  rw [toURational, if_neg (not_lt.2 hr.1)]
  split_ifs with hz hw
  · subst hz
    exact ⟨_, rfl, by exact_mod_cast approximates_whole le_rfl hb.1 hb.2.1⟩
  · obtain ⟨n, rfl⟩ := (truncate_eq_iff f).1 hw.1
    rw [truncate_intCast]
    exact ⟨_, rfl, approximates_whole (by exact_mod_cast hr.1) (by exact_mod_cast hr.2) hb.2.1⟩
  · have hnt : ¬ ∃ n : ℤ, f = n := fun h => hw ⟨(truncate_eq_iff f).2 h, hr.2⟩
    have hfr : ∀ d, ¬ Fits 0 uintMax f d → 10 ≤ d :=
      ten_le_of_not_fits (abs_le_of_not_whole hf.1 hnt) hb.2.2 (.inr ⟨rfl, hr.1⟩)
    exact ⟨_, rfl, fraction_approximates hfr hb.2.1 hz (fun hn => absurd hn (not_lt.2 hr.1)) le_rfl
      (by exact_mod_cast hr)⟩

theorem toURational_of_lt (ha : uintMax < f) : toURational (.finite f hf) = .ok (1, 1) := by
  have hp : 0 < f := lt_trans (by norm_num [uintMax]) ha
  rw [toURational, if_neg hp.not_gt, if_neg hp.ne', if_neg fun h => ha.not_ge h.2,
    fraction_of_never (fun d hd hft => ?_) 9 le_rfl (by decide) (by decide), if_pos hp]
  have ht : (2 : ℚ) ≤ d := by exact_mod_cast hd
  have hhi := hft.2
  norm_num [uintMax] at ha hhi
  nlinarith

end

/-- **The fraction for a number is right exactly if the number is in range**, for every finite number of type
`float`, signed and unsigned. -/
theorem exif_rationals_iff (f : ℚ) (hf : single.Mem f ∧ |f| < 2 ^ single.limit) :
    (Approximates intMin intMax f (toRational (.finite f hf)) ↔ intMin ≤ f ∧ f ≤ intMax) ∧
    ((∃ r, toURational (.finite f hf) = .ok r ∧ Approximates 0 uintMax f r) ↔ 0 ≤ f ∧ f ≤ uintMax) := by
  constructor
  · refine ⟨fun h => ?_, toRational_of_mem hf⟩
    by_contra ho
    have hon := toRational_of_not_mem hf ho
    rw [not_and_or, not_le, not_le] at ho
    rcases ho with hb | ha
    · have hl := hon.symm.trans (h.below hb)
      rw [if_neg (not_lt.2 (hb.le.trans (by norm_num [intMin])))] at hl
      exact absurd (Prod.mk.inj hl).1 (by decide)
    · have hm := hon.symm.trans (h.above ha)
      rw [if_pos (lt_trans (by norm_num [intMax]) ha)] at hm
      exact absurd (Prod.mk.inj hm).1 (by decide)
  · refine ⟨?_, toURational_of_mem hf⟩
    rintro ⟨r, hr, hap⟩
    by_contra ho
    rw [not_and_or, not_le, not_le] at ho
    rcases ho with hn | ha
    · rw [toURational, if_pos hn] at hr
      cases hr
    · rw [toURational_of_lt hf ha] at hr
      have hm := (Except.ok.inj hr).trans (hap.above ha)
      exact absurd (Prod.mk.inj hm).1 (by decide)

theorem mem_half : single.Mem (1 / 2) ∧ |(1 / 2 : ℚ)| < 2 ^ single.limit :=
  ⟨⟨1, -1, by norm_num [single], by norm_num [single], by norm_num⟩, by norm_num [single]⟩

theorem exif_rationals_half :
    (single.Mem (1 / 2) ∧ |(1 / 2 : ℚ)| < 2 ^ single.limit) ∧
    Approximates intMin intMax (1 / 2) (toRational (.finite (1 / 2) mem_half)) ∧
    ∃ r, toURational (.finite (1 / 2) mem_half) = .ok r ∧ Approximates 0 uintMax (1 / 2) r :=
  ⟨mem_half, (exif_rationals_iff (1 / 2) mem_half).1.2 (by norm_num [intMin, intMax]),
    (exif_rationals_iff (1 / 2) mem_half).2.2 (by norm_num [uintMax])⟩

theorem mem_large : single.Mem (2 ^ 33) ∧ |(2 ^ 33 : ℚ)| < 2 ^ single.limit :=
  ⟨⟨1, 33, by norm_num [single], by norm_num [single], by norm_num⟩, by norm_num [single]⟩

theorem large_becomes_one :
    toRational (.finite (2 ^ 33) mem_large) = (1, 1) ∧ toURational (.finite (2 ^ 33) mem_large) = .ok (1, 1) ∧
    ¬ Approximates intMin intMax (2 ^ 33) (toRational (.finite (2 ^ 33) mem_large)) ∧
    ¬ ∃ r, toURational (.finite (2 ^ 33) mem_large) = .ok r ∧ Approximates 0 uintMax (2 ^ 33) r := by
  have hs : toRational (.finite (2 ^ 33) mem_large) = (1, 1) := by
    rw [toRational_of_not_mem mem_large (by norm_num [intMin, intMax]), if_pos (by norm_num)]
  have hu := toURational_of_lt mem_large (by norm_num [uintMax])
  refine ⟨hs, hu, fun h => ?_, ?_⟩
  · have hm := hs.symm.trans (h.above (by norm_num [intMax]))
    exact absurd (Prod.mk.inj hm).1 (by decide)
  · rintro ⟨r, hr, ha⟩
    rw [hu] at hr
    have hm := (Except.ok.inj hr).trans (ha.above (by norm_num [uintMax]))
    exact absurd (Prod.mk.inj hm).1 (by decide)

end Sipi.Metadata
