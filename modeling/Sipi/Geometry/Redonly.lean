import Sipi.Geometry.Reduce

/-!
# Sizes that halving alone reaches

`get_size` of `iiifparser/cpp/value_objects/SipiSize.cpp` reports `redonly` when the reduce level alone gives the
size.
-/

namespace Sipi.Geometry

open Sipi.Iiif Sipi.Theory

/-- Halving gives the size on both axes. -/
def Resolved.Exact (r : Resolved) (d : Dims) : Prop :=
  (d.reduced r.reduce).w = r.w ∧ (d.reduced r.reduce).h = r.h

/-- A size said to be reached by halving is. -/
def Resolved.Honest (r : Resolved) (d : Dims) : Prop := r.redonly = true → r.Exact d

section
variable {cap : Option ℕ} {s : SizeParts} {d : Dims} {r : Resolved}

theorem fit_hit {side n : ℕ} {f : Fit} (hn : 0 < n) (h : fit side n (cap.getD side) = .ok f)
    (he : f.exactMatch = true) (other : ℕ) :
    side ⌈/⌉ 2 ^ f.reduce = n ∧ other ⌈/⌉ 2 ^ f.reduce = otherSide f side n other := by
  refine ⟨?_, (if_pos he).symm⟩
  rw [fit_eq hn] at h
  split at h <;> cases h
  obtain ⟨hh, hl⟩ := of_decide_eq_true he
  rw [reach_of_hits hh, min_eq_right hl]
  exact hh

theorem getSizeX_honest (hx : 0 < s.nx) (h : getSizeX cap s d = .ok r) : r.Honest d := by
  obtain ⟨f, hf, h⟩ := bind_eq_ok.mp h
  obtain ⟨_, rfl⟩ := guardUpscaling_eq_ok.mp h
  exact fun he => fit_hit hx hf he d.h

theorem getSizeY_honest (hy : 0 < s.ny) (h : getSizeY cap s d = .ok r) : r.Honest d := by
  obtain ⟨f, hf, h⟩ := bind_eq_ok.mp h
  obtain ⟨_, rfl⟩ := guardUpscaling_eq_ok.mp h
  exact fun he => (fit_hit hy hf he d.w).symm

theorem fitSide_hit_iff {upscaling : Bool} {side n left : ℕ} {f : Fit} (hn : 0 < n)
    (h : fitSide upscaling side n left = .ok f) : f.exactMatch = true ∧ f.reduce = 0 ↔ side ≤ n := by
  by_cases hs : side < n
  · rw [fitSide, if_pos hs] at h
    split at h <;> cases h
    simp [hs.le]
  have hl : n ≤ side := not_lt.mp hs
  rw [fitSide_exactMatch hn hl h, fitSide_reduce hn h]
  constructor
  · rintro ⟨⟨hh, hle⟩, hz⟩
    have hhz : side ⌈/⌉ 2 ^ level side n = n := hh
    rw [← reach_of_hits hh, show reach side n = 0 by omega, ceilDiv_two_pow_zero] at hhz
    exact hhz.le
  · intro hle
    obtain rfl : side = n := le_antisymm hle hl
    have hz : level side side = 0 := Nat.le_zero.mp ((level_le_iff hn 0).mpr (ceilDiv_two_pow_zero side).le)
    have hr : reach side side = 0 := Nat.le_zero.mp (hz ▸ reach_le_level side side)
    refine ⟨⟨?_, by omega⟩, by omega⟩
    rw [Hits, hz, ceilDiv_two_pow_zero]

theorem not_exact_of_larger (h : d.w < r.w ∨ d.h < r.h) : ¬ r.Exact d := by
  rintro ⟨hw, hh⟩
  have hwl : d.w ⌈/⌉ 2 ^ r.reduce ≤ d.w ⌈/⌉ 2 ^ 0 := ceilDiv_two_pow_antitone d.w (Nat.zero_le _)
  have hhl : d.h ⌈/⌉ 2 ^ r.reduce ≤ d.h ⌈/⌉ 2 ^ 0 := ceilDiv_two_pow_antitone d.h (Nat.zero_le _)
  rw [ceilDiv_two_pow_zero] at hwl hhl
  change d.w ⌈/⌉ 2 ^ r.reduce = r.w at hw
  change d.h ⌈/⌉ 2 ^ r.reduce = r.h at hh
  omega

theorem getSizeXy_redonly_of_larger (hx : 0 < s.nx) (hy : 0 < s.ny) (h : getSizeXy cap s d = .ok r)
    (hl : d.w < s.nx ∨ d.h < s.ny) : r.redonly = true ↔ d.w ≤ s.nx ∧ d.h ≤ s.ny := by
  obtain ⟨fw, hfw, h⟩ := bind_eq_ok.mp h
  obtain ⟨fh, hfh, h⟩ := bind_eq_ok.mp h
  cases h
  have hw := fitSide_hit_iff hx hfw
  have hh := fitSide_hit_iff hy hfh
  -- a side that is enlarged is at level zero
  have hz : fw.reduce = 0 ∨ fh.reduce = 0 := hl.imp (fun h => (hw.mpr h.le).2) fun h => (hh.mpr h.le).2
  rw [← hw, ← hh]
  simp only [Bool.and_eq_true, decide_eq_true_eq]
  constructor
  · rintro ⟨⟨hew, heh⟩, heq⟩
    exact ⟨⟨hew, by omega⟩, heh, by omega⟩
  · rintro ⟨⟨hew, hzw⟩, heh, hzh⟩
    exact ⟨⟨hew, heh⟩, by omega⟩

/-- The image lies within the size and is not it. -/
def OnlyEnlarges (s : SizeParts) (d : Dims) : Prop := d.w ≤ s.nx ∧ d.h ≤ s.ny ∧ (d.w < s.nx ∨ d.h < s.ny)

theorem getSizeXy_honest_of_fits (hx : 0 < s.nx) (hy : 0 < s.ny) (hw : s.nx ≤ d.w) (hh : s.ny ≤ d.h)
    (h : getSizeXy cap s d = .ok r) : r.Honest d := by
  intro hb
  obtain ⟨hhi, hht, heq, hbl⟩ := (getSizeXy_redonly hx hy hw hh h).mp hb
  obtain ⟨hsw, hsh⟩ := Prod.mk.inj (sides_of_getSizeXy h)
  have hl : pairLevel cap (reach d.w s.nx) (reach d.h s.ny) = reach d.w s.nx := by
    rcases hbl with hbl | hz
    · rw [pairLevel_of_below hbl, ← heq, min_self]
    · unfold pairLevel
      split <;> omega
  rw [Resolved.Exact, getSizeXy_reduce hx hy h, hl, hsw, hsh]
  constructor
  · show d.w ⌈/⌉ 2 ^ reach d.w s.nx = s.nx
    rw [reach_of_hits hhi]
    exact hhi
  · show d.h ⌈/⌉ 2 ^ reach d.w s.nx = s.ny
    rw [heq, reach_of_hits hht]
    exact hht

theorem getSizeXy_honest_iff (hx : 0 < s.nx) (hy : 0 < s.ny) (h : getSizeXy cap s d = .ok r) :
    r.Honest d ↔ ¬ OnlyEnlarges s d := by
  by_cases hl : d.w < s.nx ∨ d.h < s.ny
  · have he : ¬ r.Exact d := by
      obtain ⟨hsw, hsh⟩ := Prod.mk.inj (sides_of_getSizeXy h)
      apply not_exact_of_larger
      rwa [hsw, hsh]
    have hr := getSizeXy_redonly_of_larger hx hy h hl
    unfold Resolved.Honest OnlyEnlarges
    rw [hr]
    tauto
  · have hh := getSizeXy_honest_of_fits hx hy (by omega) (by omega) h
    exact iff_of_true hh fun ho => hl ho.2.2

/-- A percentage loses less than the last block. -/
def NothingLost (k : ℕ) (p : ℚ) (side : ℕ) : Prop := side * (100 - 2 ^ k * p) < 100 * ((side - 1) % 2 ^ k + 1 : ℕ)

theorem ceil_percent_eq_iff {k side : ℕ} {p : ℚ} (hsd : 0 < side) (hle : 2 ^ k * p ≤ 100) :
    side ⌈/⌉ 2 ^ k = ⌈side * p / 100⌉₊ ↔ NothingLost k p side := by
  have hs : 2 ^ k * (p / 100) ≤ 1 := by
    rw [← mul_div_assoc, div_le_one (by norm_num)]
    exact hle
  have hbn : ⌈side * p / 100⌉₊ ≤ side ⌈/⌉ 2 ^ k := by
    rw [mul_div_assoc]
    exact ceil_mul_le_ceilDiv side hs
  have hb : 2 ^ k * (side ⌈/⌉ 2 ^ k - 1) + ((side - 1) % 2 ^ k + 1) = side := by
    have hp : 0 < 2 ^ k := by positivity
    have hc : side ⌈/⌉ 2 ^ k = (side - 1) / 2 ^ k + 1 := by
      rw [Nat.ceilDiv_eq_add_pred_div, show side + 2 ^ k - 1 = (side - 1) + 2 ^ k by omega, Nat.add_div_right _ hp]
    have hd := Nat.div_add_mod (side - 1) (2 ^ k)
    rw [hc, Nat.add_sub_cancel]
    omega
  have hps : 0 < side ⌈/⌉ 2 ^ k := ceilDiv_pos hsd (by positivity)
  have hsp : (2 : ℚ) ^ k * (side ⌈/⌉ 2 ^ k - 1 : ℕ) + ((side - 1) % 2 ^ k + 1 : ℕ) = side := by
    exact_mod_cast hb
  have hp : (0 : ℚ) < 2 ^ k := by positivity
  calc side ⌈/⌉ 2 ^ k = ⌈side * p / 100⌉₊ ↔ side ⌈/⌉ 2 ^ k - 1 < ⌈side * p / 100⌉₊ := by omega
    _ ↔ ((side ⌈/⌉ 2 ^ k - 1 : ℕ) : ℚ) < side * p / 100 := Nat.lt_ceil
    _ ↔ 2 ^ k * ((side ⌈/⌉ 2 ^ k - 1 : ℕ) : ℚ) * 100 < 2 ^ k * (side * p) := by
      rw [lt_div_iff₀ (by norm_num), mul_assoc, mul_lt_mul_iff_right₀ hp]
    _ ↔ NothingLost k p side := by
      unfold NothingLost
      constructor <;> intro h <;> linarith

/-- The tolerance takes nothing else for reached. -/
def PercentExact (cap : Option ℕ) (p : ℚ) (d : Dims) : Prop :=
  ¬ (100 < p ∧ 1 - 100 / p < 1 / 10 ^ 5) ∧
    ∀ k, Allows cap k → 2 ^ k * p ≤ 100 → 100 / p - 2 ^ k < 1 / 10 ^ 5 → NothingLost k p d.w ∧ NothingLost k p d.h

theorem eq_ratioFit_of_near {r : ℚ} {k : ℕ} (hk : Allows cap k) (hle : 2 ^ k ≤ r) (hn : r - 2 ^ k < 1 / 10 ^ 5) :
    k = (ratioFit cap r).1 := by
  have ho : 1 ≤ r := le_trans (one_le_pow₀ (by norm_num)) hle
  obtain ⟨hr, -, hl⟩ := ratioFit_spec cap ho
  by_contra hne
  have hlt : k + 1 ≤ (ratioFit cap r).1 := Nat.lt_of_le_of_ne (hl k hk hle) hne
  have hp : (2 : ℚ) ^ (k + 1) ≤ 2 ^ (ratioFit cap r).1 := pow_le_pow_right₀ (by norm_num) hlt
  have hb : (1 : ℚ) ≤ 2 ^ k := one_le_pow₀ (by norm_num)
  have hs : (1 : ℚ) / 10 ^ 5 < 1 := by norm_num
  rw [pow_succ] at hp
  linarith

theorem ratioFit_near_iff (cap : Option ℕ) (r : ℚ) :
    (ratioFit cap r).2 = true ↔ |2 ^ (ratioFit cap r).1 - r| < 1 / 10 ^ 5 := decide_eq_true_iff

/-- What a percentage resolves to. -/
def percentResolved (cap : Option ℕ) (p : ℚ) (d : Dims) : Resolved :=
  ⟨⌈d.w * p / 100⌉₊, ⌈d.h * p / 100⌉₊, (ratioFit cap (100 / p)).1, (ratioFit cap (100 / p)).2⟩

theorem percent_honest_iff_of_gt {p : ℚ} (hp : 0 < p) (hl : 100 < p) :
    (percentResolved cap p d).Honest d ↔ PercentExact cap p d := by
  have hr : 100 / p < 1 := (div_lt_one hp).mpr hl
  have hw : (0 : ℚ) < d.w := by exact_mod_cast d.w_pos
  have he : ¬ (percentResolved cap p d).Exact d := by
    apply not_exact_of_larger
    left
    show d.w < ⌈d.w * p / 100⌉₊
    rw [Nat.lt_ceil, lt_div_iff₀ (by norm_num)]
    exact mul_lt_mul_of_pos_left hl hw
  have hn : (percentResolved cap p d).redonly = true ↔ 1 - 100 / p < 1 / 10 ^ 5 := by
    show (ratioFit cap (100 / p)).2 = true ↔ _
    rw [ratioFit_near_iff, ratioFit_of_lt_one cap hr, pow_zero, abs_of_pos (by linarith)]
  have hv : ∀ k : ℕ, ¬ 2 ^ k * p ≤ 100 := by
    intro k hle
    have ho : (1 : ℚ) ≤ 2 ^ k := one_le_pow₀ (by norm_num)
    have := mul_le_mul_of_nonneg_right ho hp.le
    linarith
  unfold Resolved.Honest PercentExact
  simp only [hn, he, hl, hv, true_and, false_imp_iff, implies_true, and_true, imp_false]

theorem percent_honest_iff_of_le {p : ℚ} (hp : 0 < p) (hs : p ≤ 100) :
    (percentResolved cap p d).Honest d ↔ PercentExact cap p d := by
  obtain ⟨hle, ha, -⟩ := ratioFit_spec cap ((one_le_div hp).mpr hs)
  have hpw : 2 ^ (ratioFit cap (100 / p)).1 * p ≤ 100 := (le_div_iff₀ hp).mp hle
  have he : (percentResolved cap p d).Exact d ↔
      NothingLost (ratioFit cap (100 / p)).1 p d.w ∧ NothingLost (ratioFit cap (100 / p)).1 p d.h :=
    and_congr (ceil_percent_eq_iff d.w_pos hpw) (ceil_percent_eq_iff d.h_pos hpw)
  have hn : (percentResolved cap p d).redonly = true ↔ 100 / p - 2 ^ (ratioFit cap (100 / p)).1 < 1 / 10 ^ 5 := by
    show (ratioFit cap (100 / p)).2 = true ↔ _
    rw [ratioFit_near_iff, abs_sub_comm, abs_of_nonneg (by linarith)]
  unfold Resolved.Honest
  rw [hn, he]
  constructor
  · intro hh
    refine ⟨fun h => absurd h.1 (not_lt.mpr hs), fun k hk hkl hkn => ?_⟩
    obtain rfl := eq_ratioFit_of_near hk ((le_div_iff₀ hp).mpr hkl) hkn
    exact hh hkn
  · rintro ⟨-, hal⟩ h
    exact hal _ ha hpw h

theorem getSizePercents_honest_iff (hp : 0 < s.percent) (h : getSizePercents cap s d = .ok r) :
    r.Honest d ↔ PercentExact cap s.percent d := by
  obtain rfl : r = percentResolved cap s.percent d := (guardUpscaling_eq_ok.mp h).2
  rcases lt_or_ge 100 s.percent with hl | hs
  · exact percent_honest_iff_of_gt hp hl
  · exact percent_honest_iff_of_le hp hs

theorem eq_two_pow_mul_of_near {side n k : ℕ} (hn : 0 < n) (hle : n ≤ limitdim)
    (h : |2 ^ k - (side : ℚ) / n| < 1 / 10 ^ 5) : side = 2 ^ k * n := by
  have hp : (0 : ℚ) < n := by exact_mod_cast hn
  have hc : (n : ℚ) ≤ 32000 := by exact_mod_cast hle
  have hs : |((2 ^ k * n : ℕ) : ℤ) - (side : ℤ)| < 1 := by
    have hq : |((2 : ℚ) ^ k * n - side)| < 1 := by
      rw [show (2 : ℚ) ^ k * n - side = (2 ^ k - side / n) * n by field_simp, abs_mul, abs_of_pos hp]
      calc |(2 : ℚ) ^ k - side / n| * n ≤ 1 / 10 ^ 5 * 32000 := by gcongr
        _ < 1 := by norm_num
    exact_mod_cast hq
  have hz := Int.abs_lt_one_iff.mp hs
  omega

theorem ratioFit_exact {side n : ℕ} (other : ℕ) (hn : 0 < n) (hle : n ≤ limitdim)
    (h : (ratioFit cap (side / n)).2 = true) :
    side ⌈/⌉ 2 ^ (ratioFit cap (side / n)).1 = n ∧
      other ⌈/⌉ 2 ^ (ratioFit cap (side / n)).1 = ⌈other * ((n : ℚ) / side)⌉₊ := by
  generalize hk : (ratioFit cap (side / n)).1 = k
  have heq : side = 2 ^ k * n := by
    apply eq_two_pow_mul_of_near hn hle
    rw [← hk]
    exact (ratioFit_near_iff cap _).mp h
  have hp : (0 : ℚ) < n := by exact_mod_cast hn
  constructor
  · refine eq_of_forall_ge_iff fun c => ?_
    rw [ceilDiv_two_pow_le_iff, heq]
    exact Nat.mul_le_mul_left_iff (by positivity)
  · have hs : (other : ℚ) * (n / side) = other / (2 ^ k : ℕ) := by
      rw [heq]
      push_cast
      field_simp
    rw [hs, ceil_div_eq_ceilDiv other (by positivity)]

theorem getSizeMaxdim_honest (hx : 0 < s.nx) (hxl : s.nx ≤ limitdim) (hy : 0 < s.ny) (hyl : s.ny ≤ limitdim)
    (h : getSizeMaxdim cap s d = .ok r) : r.Honest d := by
  unfold getSizeMaxdim at h
  dsimp only at h
  intro hr
  split at h
  · obtain ⟨_, rfl⟩ := guardUpscaling_eq_ok.mp h
    exact ratioFit_exact d.h hx hxl hr
  · obtain ⟨_, rfl⟩ := guardUpscaling_eq_ok.mp h
    exact (ratioFit_exact d.w hy hyl hr).symm

theorem getSizeReduce_honest (h : getSizeReduce cap s d = .ok r) : r.Honest d := by
  unfold getSizeReduce at h
  split at h
  · cases h
    exact fun _ => ⟨ceilDiv_two_pow_zero _, ceilDiv_two_pow_zero _⟩
  · obtain ⟨_, _, h⟩ := bind_eq_ok.mp h
    obtain ⟨_, _, h⟩ := bind_eq_ok.mp h
    cases h
    intro hr
    cases hr

/-- `w,h` does not only enlarge, `pct:p` is exact. -/
def HalvingExact (cap : Option ℕ) (s : SizeParts) (d : Dims) : Prop :=
  match s.kind with
  | .pixelsXy => ¬ OnlyEnlarges s d
  | .percents => PercentExact cap s.percent d
  | _ => True

theorem honest_iff (hv : SizeParts.Valid s) (h : getSize cap s d = .ok r) : r.Honest d ↔ HalvingExact cap s d := by
  unfold getSize at h
  unfold HalvingExact
  unfold SizeParts.Valid at hv
  cases hk : s.kind <;> simp only [hk] at hv h ⊢
  case full =>
    cases h
    exact iff_of_true (fun _ => ⟨ceilDiv_two_pow_zero _, ceilDiv_two_pow_zero _⟩) trivial
  case pixelsXy => exact getSizeXy_honest_iff hv.1 hv.2 h
  case pixelsX => exact iff_of_true (getSizeX_honest hv h) trivial
  case pixelsY => exact iff_of_true (getSizeY_honest hv h) trivial
  case percents => exact getSizePercents_honest_iff hv h
  case maxdim => exact iff_of_true (getSizeMaxdim_honest hv.1.1 hv.2.1 hv.1.2 hv.2.2 h) trivial

/-- **Reduce-only means exact if and only if** a size `w,h` does not only enlarge the image, and a percentage that is
near to a power of two loses nothing by it. -/
theorem redonly_honest_iff {str : Str} (hparse : parseSize str = .ok s) (h : getSize cap s d = .ok r) :
    r.Honest d ↔ HalvingExact cap s d := by
  by_cases hk : s.kind = .reduce
  · unfold getSize at h
    unfold HalvingExact
    simp only [hk] at h ⊢
    exact iff_of_true (getSizeReduce_honest h) trivial
  · exact honest_iff (parseSize_valid hparse hk) h

theorem enlarged_reported_reached :
    (∃ s, parseSize (txt "^200,100") = .ok s ∧ getSize none s (.mk 100 100) = .ok ⟨200, 100, 0, true⟩ ∧
        ¬ Resolved.Honest ⟨200, 100, 0, true⟩ (.mk 100 100)) ∧
      ∃ s, parseSize (txt "^pct:100.0005") = .ok s ∧ getSize none s (.mk 100 100) = .ok ⟨101, 101, 0, true⟩ ∧
        ¬ Resolved.Honest ⟨101, 101, 0, true⟩ (.mk 100 100) := by
  refine ⟨⟨⟨.pixelsXy, true, 0, 0, 200, 100⟩, by decide +kernel, by decide +kernel, fun h => ?_⟩,
    ⟨.percents, true, 100.0005, 0, 0, 0⟩, by decide +kernel, by decide +kernel, fun h => ?_⟩
  · exact absurd (h rfl).1 (by decide)
  · exact absurd (h rfl).1 (by decide)

theorem half_size_is_reached :
    parseSize (txt "50,25") = .ok ⟨.pixelsXy, false, 0, 0, 50, 25⟩ ∧
      getSize (some 3) ⟨.pixelsXy, false, 0, 0, 50, 25⟩ (.mk 100 50) = .ok ⟨50, 25, 1, true⟩ ∧
      Resolved.Honest ⟨50, 25, 1, true⟩ (.mk 100 50) := by
  have hp : parseSize (txt "50,25") = .ok ⟨.pixelsXy, false, 0, 0, 50, 25⟩ := by decide +kernel
  have hg : getSize (some 3) ⟨.pixelsXy, false, 0, 0, 50, 25⟩ (.mk 100 50) = .ok ⟨50, 25, 1, true⟩ := by
    decide +kernel
  have he : HalvingExact (some 3) ⟨.pixelsXy, false, 0, 0, 50, 25⟩ (.mk 100 50) := by
    rintro ⟨hw, -⟩
    exact absurd hw (by decide)
  exact ⟨hp, hg, (redonly_honest_iff hp hg).mpr he⟩

end

end Sipi.Geometry
