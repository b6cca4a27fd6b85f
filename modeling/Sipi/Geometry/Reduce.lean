import Sipi.Geometry.Size
import Mathlib.Data.Nat.Log
import Mathlib.Algebra.Order.Floor.Semifield

/-!
# The reduce level of a size

`get_size` of `iiifparser/cpp/value_objects/SipiSize.cpp` says how often a decoder may halve the image (`reduce`),
and the decoders take it at its word.

## Honest scope

Quotients are exact.
-/

namespace Sipi.Geometry

open Sipi.Iiif Sipi.Theory

/-! ### The loops -/

variable {side n k : ℕ}

theorem lt_halved_of_lt_level (hn : 0 < n) (h : k < level side n) : n < side ⌈/⌉ 2 ^ k := by
  rw [← not_le, ← level_le_iff hn, not_le]
  exact h

theorem le_halved (hn : 0 < n) (hle : n ≤ side) (hk : k ≤ reach side n) : n ≤ side ⌈/⌉ 2 ^ k := by
  rcases Nat.lt_or_ge k (level side n) with hlt | hge
  · exact (lt_halved_of_lt_level hn hlt).le
  · have hrl := reach_le_level side n
    obtain rfl : k = level side n := by omega
    by_cases hh : Hits side n
    · exact (hh : _ = _).ge
    · rw [reach, if_neg hh] at hk
      rwa [show level side n = 0 by omega, ceilDiv_two_pow_zero]

variable (cap : Option ℕ)

/-- A number within the cap. -/
def capped (k : ℕ) : ℕ := cap.elim k (min k)

theorem capped_le (k : ℕ) : capped cap k ≤ k := by
  cases cap <;> simp [capped]

theorem allows_capped (k : ℕ) : Allows cap (capped cap k) := by
  cases cap <;> simp [capped, Allows]

variable {cap}

theorem min_getD_reach (side n : ℕ) : min (cap.getD side) (reach side n) = capped cap (reach side n) := by
  cases cap with
  | none => exact min_eq_right (reach_le_side side n)
  | some m => exact min_comm m _

theorem otherOf_le_halved (hn : 0 < n) (hle : n ≤ side) (other : ℕ) :
    otherOf cap side n other ≤ other ⌈/⌉ 2 ^ capped cap (reach side n) := by
  have hs : 0 < side := by omega
  unfold otherOf
  split
  · next hh =>
    rw [reach_of_hits hh.1]
    exact ceilDiv_two_pow_antitone other (capped_le _ _)
  · next hh =>
    apply share_le_ceilDiv_two_pow hs
    rcases Nat.lt_or_ge (capped cap (reach side n)) (level side n) with hlt | hge
    · exact ((lt_ceilDiv_two_pow_iff _ _ _).mp (lt_halved_of_lt_level hn hlt)).le
    · -- a level that is reached is hit, unless nothing is halved
      have hr := reach_le_level side n
      have hc := capped_le cap (reach side n)
      have hnh : ¬ Hits side n := fun h => hh ⟨h, by
        have ha := allows_capped cap (reach side n)
        rwa [show capped cap (reach side n) = level side n by omega] at ha⟩
      have hr0 : reach side n = 0 := by
        have hrl : reach side n = level side n - 1 := if_neg hnh
        omega
      rw [hr0, Nat.le_zero.mp (capped_le cap 0), pow_zero, one_mul]
      exact hle

theorem ratioLevel_spec {r : ℚ} (left k : ℕ) (h : 2 ^ k ≤ r) :
    2 ^ ratioLevel r left k ≤ r ∧ ratioLevel r left k ≤ k + left ∧
      (ratioLevel r left k = k + left ∨ r < 2 ^ (ratioLevel r left k + 1)) := by
  induction left generalizing k with
  | zero => exact ⟨h, le_rfl, Or.inl rfl⟩
  | succ left ih =>
    rw [ratioLevel]
    split
    · next hm =>
      obtain ⟨hle, hb, he⟩ := ih (k + 1) (by rwa [pow_succ'])
      exact ⟨hle, by omega, he.imp_left fun h => by omega⟩
    · next hd => exact ⟨h, by omega, Or.inr (by rw [pow_succ']; exact not_le.mp hd)⟩

theorem ratioFit_spec (cap : Option ℕ) {r : ℚ} (h : 1 ≤ r) :
    2 ^ (ratioFit cap r).1 ≤ r ∧ Allows cap (ratioFit cap r).1 ∧
      ∀ j, Allows cap j → 2 ^ j ≤ r → j ≤ (ratioFit cap r).1 := by
  obtain ⟨hle, hb, he⟩ := ratioLevel_spec (r := r) (cap.getD ⌈r⌉₊) 0 (by simpa using h)
  change 2 ^ (ratioFit cap r).1 ≤ r at hle
  change (ratioFit cap r).1 ≤ _ at hb
  change (ratioFit cap r).1 = _ ∨ r < 2 ^ ((ratioFit cap r).1 + 1) at he
  rw [zero_add] at hb he
  refine ⟨hle, ?_, fun j hj hr => ?_⟩
  · intro m hm
    obtain rfl := Option.mem_def.mp hm
    exact hb
  · rcases he with ha | he
    · cases cap with
      | some m => exact ha ▸ hj m rfl
      | none =>
        -- a power of two within the ratio has an exponent below it
        have hlt : (j : ℚ) < r := lt_of_lt_of_le (by exact_mod_cast Nat.lt_two_pow_self) hr
        rw [ha]
        exact (Nat.lt_ceil.mpr hlt).le
    · have hlt : (2 : ℚ) ^ j < 2 ^ ((ratioFit cap r).1 + 1) := lt_of_le_of_lt hr he
      exact Nat.lt_succ_iff.mp ((pow_lt_pow_iff_right₀ (by norm_num)).mp hlt)

theorem ratioFit_of_lt_one (cap : Option ℕ) {r : ℚ} (h : r < 1) : (ratioFit cap r).1 = 0 := by
  show ratioLevel r (cap.getD ⌈r⌉₊) 0 = 0
  cases cap.getD ⌈r⌉₊ with
  | zero => rfl
  | succ left => exact if_neg (by norm_num; linarith)

theorem ratioFit_fst (cap : Option ℕ) (r : ℚ) : (ratioFit cap r).1 = capped cap (Nat.log 2 ⌊r⌋₊) := by
  rcases lt_or_ge r 1 with hl | ho
  · rw [ratioFit_of_lt_one cap hl, Nat.floor_eq_zero.mpr hl, Nat.log_zero_right]
    exact (Nat.le_zero.mp (capped_le cap 0)).symm
  obtain ⟨hle, ha, hm⟩ := ratioFit_spec cap ho
  have hf : ⌊r⌋₊ ≠ 0 := (Nat.floor_pos.mpr ho).ne'
  apply le_antisymm
  · have hlog : (ratioFit cap r).1 ≤ Nat.log 2 ⌊r⌋₊ := by
      refine Nat.le_log_of_pow_le (by norm_num) (Nat.le_floor ?_)
      exact_mod_cast hle
    cases cap with
    | none => exact hlog
    | some m => exact le_min hlog (ha m rfl)
  · refine hm _ (allows_capped _ _) ?_
    calc (2 : ℚ) ^ capped cap (Nat.log 2 ⌊r⌋₊) ≤ 2 ^ Nat.log 2 ⌊r⌋₊ := pow_le_pow_right₀ (by norm_num) (capped_le _ _)
      _ ≤ (⌊r⌋₊ : ℚ) := by exact_mod_cast Nat.pow_log_le_self 2 hf
      _ ≤ r := Nat.floor_le (by linarith)

theorem ceil_mul_le_ceilDiv (side : ℕ) {q : ℚ} (h : 2 ^ k * q ≤ 1) : ⌈side * q⌉₊ ≤ side ⌈/⌉ 2 ^ k := by
  have hh : (side : ℚ) ≤ 2 ^ k * (side ⌈/⌉ 2 ^ k : ℕ) := by
    exact_mod_cast le_mul_ceilDiv side (b := 2 ^ k) (by positivity)
  rw [Nat.ceil_le]
  refine le_of_mul_le_mul_left ?_ (show (0 : ℚ) < 2 ^ k by positivity)
  calc (2 : ℚ) ^ k * (side * q) = side * (2 ^ k * q) := by ring
    _ ≤ side * 1 := by gcongr
    _ ≤ 2 ^ k * (side ⌈/⌉ 2 ^ k : ℕ) := by rwa [mul_one]

/-- The level of two sides by their reaches. -/
def pairLevel (cap : Option ℕ) (a b : ℕ) : ℕ := if Below cap a then min a b else 0

/-- The reduce level of a size, by its numbers. -/
def exponent (cap : Option ℕ) (s : SizeParts) (d : Dims) : ℕ :=
  match s.kind with
  | .pixelsXy => pairLevel cap (reach d.w s.nx) (reach d.h s.ny)
  | .pixelsX => capped cap (reach d.w s.nx)
  | .pixelsY => capped cap (reach d.h s.ny)
  | .percents => capped cap (Nat.log 2 ⌊100 / s.percent⌋₊)
  | .maxdim => capped cap (Nat.log 2 (if (s.nx : ℚ) / d.w < s.ny / d.h then d.w / s.nx else d.h / s.ny))
  | _ => 0

section
variable {s : SizeParts} {d : Dims} {r : Resolved}

theorem fitSide_exactMatch {upscaling : Bool} {left : ℕ} {f : Fit} (hn : 0 < n) (hle : n ≤ side)
    (h : fitSide upscaling side n left = .ok f) : f.exactMatch = true ↔ Hits side n ∧ reach side n ≤ left := by
  rw [fitSide, if_neg (not_lt.mpr hle), fit_eq hn] at h
  split at h
  · cases h
    rw [decide_eq_true_eq]
    exact and_congr_right fun hh => by rw [reach_of_hits hh]
  · cases h

theorem getSizeXy_reduce (hx : 0 < s.nx) (hy : 0 < s.ny) (h : getSizeXy cap s d = .ok r) :
    r.reduce = pairLevel cap (reach d.w s.nx) (reach d.h s.ny) := by
  obtain ⟨fw, hfw, h⟩ := bind_eq_ok.mp h
  obtain ⟨fh, hfh, h⟩ := bind_eq_ok.mp h
  cases h
  have hw := fitSide_reduce hx hfw
  have hh := fitSide_reduce hy hfh
  simp only [hw, below_min_reach] at hh
  show min fw.reduce fh.reduce = _
  rw [hw, hh, min_getD_reach, pairLevel]
  by_cases hb : Below cap (reach d.w s.nx)
  · have hc : capped cap (reach d.w s.nx) = reach d.w s.nx := by
      cases cap with
      | none => rfl
      | some m => exact min_eq_left (hb m rfl).le
    rw [if_pos hb, if_pos hb, hc, min_eq_right (reach_le_side d.h s.ny)]
  · rw [if_neg hb, if_neg hb, Nat.zero_min, Nat.min_zero]

theorem getSizeXy_redonly (hx : 0 < s.nx) (hy : 0 < s.ny) (hwd : s.nx ≤ d.w) (hhd : s.ny ≤ d.h)
    (h : getSizeXy cap s d = .ok r) :
    r.redonly = true ↔ Hits d.w s.nx ∧ Hits d.h s.ny ∧ reach d.w s.nx = reach d.h s.ny ∧
      (Below cap (reach d.w s.nx) ∨ reach d.w s.nx = 0) := by
  obtain ⟨fw, hfw, h⟩ := bind_eq_ok.mp h
  obtain ⟨fh, hfh, h⟩ := bind_eq_ok.mp h
  cases h
  have hw := fitSide_reduce hx hfw
  have hh := fitSide_reduce hy hfh
  have hew := fitSide_exactMatch hx hwd hfw
  have heh := fitSide_exactMatch hy hhd hfh
  simp only [hw, below_min_reach] at hh heh
  have hs := reach_le_side d.h s.ny
  simp only [Bool.and_eq_true, decide_eq_true_eq, hew, heh, hw, hh]
  by_cases hb : Below cap (reach d.w s.nx)
  · have hc : reach d.w s.nx ≤ cap.getD d.w := by
      cases cap with
      | none => exact reach_le_side _ _
      | some m => exact (hb m rfl).le
    simp only [hb, if_true, hs, hc, min_eq_right, and_true, true_or]
    tauto
  · obtain ⟨m, rfl, hm⟩ : ∃ m, cap = some m ∧ m ≤ reach d.w s.nx := by
      cases cap with
      | none => exact absurd (fun m hm => by cases hm) hb
      | some m => exact ⟨m, rfl, not_lt.mp fun h => hb fun _ hm => by cases hm; exact h⟩
    simp only [hb, if_false, false_or, Option.getD_some, min_eq_left hm, Nat.zero_min]
    constructor
    · rintro ⟨⟨⟨hhi, _⟩, hht, hz⟩, rfl⟩
      exact ⟨hhi, hht, by omega, by omega⟩
    · rintro ⟨hhi, hht, heq, hz⟩
      exact ⟨⟨⟨hhi, by omega⟩, hht, by omega⟩, by omega⟩

theorem reduce_of_getSize (hv : SizeParts.Valid s) (h : getSize cap s d = .ok r) : r.reduce = exponent cap s d := by
  unfold getSize at h
  unfold exponent
  unfold SizeParts.Valid at hv
  cases hk : s.kind <;> simp only [hk] at hv h ⊢
  case full =>
    cases h
    rfl
  case pixelsXy => exact getSizeXy_reduce hv.1 hv.2 h
  case pixelsX =>
    obtain ⟨f, hf, h⟩ := bind_eq_ok.mp h
    obtain ⟨_, rfl⟩ := guardUpscaling_eq_ok.mp h
    rw [fit_eq hv] at hf
    split at hf <;> cases hf
    exact min_getD_reach _ _
  case pixelsY =>
    obtain ⟨f, hf, h⟩ := bind_eq_ok.mp h
    obtain ⟨_, rfl⟩ := guardUpscaling_eq_ok.mp h
    rw [fit_eq hv] at hf
    split at hf <;> cases hf
    exact min_getD_reach _ _
  case percents =>
    obtain ⟨_, rfl⟩ := guardUpscaling_eq_ok.mp h
    exact ratioFit_fst cap _
  case maxdim =>
    simp only [getSizeMaxdim] at h
    split at h <;> obtain ⟨_, rfl⟩ := guardUpscaling_eq_ok.mp h
    · rw [if_pos ‹_›, ← Nat.floor_div_eq_div (K := ℚ)]
      exact ratioFit_fst cap _
    · rw [if_neg ‹_›, ← Nat.floor_div_eq_div (K := ℚ)]
      exact ratioFit_fst cap _

end

/-! ### The residual scale -/

/-- The halved image is no smaller than the size. -/
def Resolved.Shrinks (r : Resolved) (d : Dims) : Prop :=
  r.w ≤ (d.reduced r.reduce).w ∧ r.h ≤ (d.reduced r.reduce).h

section
variable {m : ℕ} {s : SizeParts} {d : Dims}

/-- The size is resolved to a level within the cap, and the image halved that often is at least as large. -/
def Covers (m : ℕ) (s : SizeParts) (d : Dims) : Prop :=
  ∃ r, getSize (some m) s d = .ok r ∧ r.reduce ≤ m ∧ r.Shrinks d ∧ 1 ≤ r.w ∧ 1 ≤ r.h

theorem ceil_mul_le_reduced (cap : Option ℕ) (side : ℕ) {r q : ℚ} (h : 1 ≤ r) (hq : 0 ≤ q) (hrq : r * q ≤ 1) :
    ⌈side * q⌉₊ ≤ side ⌈/⌉ 2 ^ capped cap (Nat.log 2 ⌊r⌋₊) := by
  apply ceil_mul_le_ceilDiv
  rw [← ratioFit_fst]
  exact (mul_le_mul_of_nonneg_right (ratioFit_spec cap h).1 hq).trans hrq

theorem box_le_reduced (cap : Option ℕ) (other : ℕ) (hn : 0 < n) (hle : n ≤ side) :
    n ≤ side ⌈/⌉ 2 ^ capped cap (Nat.log 2 (side / n)) ∧
      ⌈other * ((n : ℚ) / side)⌉₊ ≤ other ⌈/⌉ 2 ^ capped cap (Nat.log 2 (side / n)) := by
  have hp : (0 : ℚ) < n := by exact_mod_cast hn
  have hsd : (0 : ℚ) < side := by exact_mod_cast lt_of_lt_of_le hn hle
  have ho : (1 : ℚ) ≤ side / n := (one_le_div hp).mpr (by exact_mod_cast hle)
  have hrq : (side : ℚ) / n * (n / side) ≤ 1 := by rw [div_mul_div_cancel₀ hp.ne', div_self hsd.ne']
  have hq : (0 : ℚ) ≤ n / side := by positivity
  rw [← Nat.floor_div_eq_div (K := ℚ)]
  refine ⟨?_, ceil_mul_le_reduced cap other ho hq hrq⟩
  have hs := ceil_mul_le_reduced cap side ho hq hrq
  rwa [mul_div_cancel₀ _ hsd.ne', Nat.ceil_natCast] at hs

theorem target_le_reduced (cap : Option ℕ) (hv : SizeParts.Valid s) (hle : target cap s d ≤ (d.w, d.h)) :
    target cap s d ≤ ((d.reduced (exponent cap s d)).w, (d.reduced (exponent cap s d)).h) := by
  obtain ⟨hw, hh⟩ := hle
  unfold target exponent Dims.reduced at *
  unfold SizeParts.Valid at hv
  cases hk : s.kind <;> simp only [hk] at hv hw hh ⊢
  case full => simp
  case pixelsXy =>
    have hl : pairLevel cap (reach d.w s.nx) (reach d.h s.ny) ≤ min (reach d.w s.nx) (reach d.h s.ny) := by
      unfold pairLevel
      split <;> omega
    exact ⟨le_halved hv.1 hw (hl.trans (min_le_left _ _)), le_halved hv.2 hh (hl.trans (min_le_right _ _))⟩
  case pixelsX => exact ⟨le_halved hv hw (capped_le _ _), otherOf_le_halved hv hw d.h⟩
  case pixelsY => exact ⟨otherOf_le_halved hv hh d.w, le_halved hv hh (capped_le _ _)⟩
  case percents =>
    simp only [mul_div_assoc, ceil_mul_le_self_iff d.w_pos] at hw ⊢
    have ho : 1 ≤ 100 / s.percent := (one_le_div hv).mpr ((div_le_one (by norm_num)).mp hw)
    have hrq : 100 / s.percent * (s.percent / 100) ≤ 1 := by
      rw [div_mul_div_cancel₀ hv.ne', div_self (by norm_num)]
    exact ⟨ceil_mul_le_reduced cap d.w ho (by positivity) hrq, ceil_mul_le_reduced cap d.h ho (by positivity) hrq⟩
  case maxdim =>
    unfold boxSides at *
    split_ifs at hw hh ⊢ with hb
    · exact box_le_reduced cap d.h hv.1.1 hw
    · exact (box_le_reduced cap d.w hv.1.2 hh).symm

theorem exponent_of_enlarged (cap : Option ℕ) (hv : SizeParts.Valid s) (h : ¬ target cap s d ≤ (d.w, d.h)) :
    exponent cap s d = 0 := by
  have hz : capped cap 0 = 0 := Nat.le_zero.mp (capped_le cap 0)
  unfold target at h
  unfold exponent
  unfold SizeParts.Valid at hv
  cases hk : s.kind <;> simp only [hk] at hv h ⊢
  case pixelsXy =>
    unfold pairLevel
    rw [Prod.mk_le_mk, not_and_or, not_le, not_le] at h
    rcases h with hx | hy
    · simp [reach_of_lt hx]
    · simp [reach_of_lt hy]
  case pixelsX =>
    have hx : d.w < s.nx := by
      by_contra hn
      exact h ⟨not_lt.mp hn, otherOf_le cap d.w_pos (not_lt.mp hn)⟩
    rw [reach_of_lt hx, hz]
  case pixelsY =>
    have hy : d.h < s.ny := by
      by_contra hn
      exact h ⟨otherOf_le cap d.h_pos (not_lt.mp hn), not_lt.mp hn⟩
    rw [reach_of_lt hy, hz]
  case percents =>
    rw [mul_div_assoc, mul_div_assoc, Prod.mk_le_mk, ceil_mul_le_self_iff d.w_pos, ceil_mul_le_self_iff d.h_pos,
      and_self, not_le, one_lt_div (by norm_num)] at h
    rw [Nat.floor_eq_zero.mpr ((div_lt_one hv).mpr h), Nat.log_zero_right, hz]
  case maxdim =>
    have hside : ∀ side n : ℕ, 0 < side → ¬ ((n : ℚ) / side ≤ 1) → side / n = 0 := by
      intro side n hs hn
      rw [div_le_one (by exact_mod_cast hs)] at hn
      exact Nat.div_eq_of_lt (by exact_mod_cast not_le.mp hn)
    unfold boxSides at h
    split_ifs at h ⊢ with hb
    · rw [hside d.w s.nx d.w_pos fun hle => h ⟨?_, (ceil_mul_le_self_iff d.h_pos).mpr hle⟩, Nat.log_zero_right, hz]
      exact_mod_cast (div_le_one (by exact_mod_cast d.w_pos)).mp hle
    · rw [hside d.h s.ny d.h_pos fun hle => h ⟨(ceil_mul_le_self_iff d.w_pos).mpr hle, ?_⟩, Nat.log_zero_right, hz]
      exact_mod_cast (div_le_one (by exact_mod_cast d.h_pos)).mp hle

theorem exponent_le (m : ℕ) (s : SizeParts) (d : Dims) : exponent (some m) s d ≤ m := by
  have hc : ∀ k, capped (some m) k ≤ m := fun k => min_le_right k m
  unfold exponent
  cases s.kind <;> simp only [hc, Nat.zero_le]
  unfold pairLevel
  split
  · next hb => exact (min_le_left _ _).trans (hb m rfl).le
  · exact Nat.zero_le m

theorem accepted_of_target_le (hv : SizeParts.Valid s) (hle : target cap s d ≤ (d.w, d.h)) :
    SizeParts.Accepted s d := by
  obtain ⟨hw, hh⟩ := hle
  right
  unfold target at hw hh
  unfold SizeParts.Valid at hv
  cases hk : s.kind <;> simp only [hk] at hv hw hh ⊢
  case pixelsXy => exact ⟨hw, hh⟩
  case pixelsX => exact hw
  case pixelsY => exact hh
  case percents =>
    rw [mul_div_assoc, ceil_mul_le_self_iff d.w_pos] at hw
    exact (div_le_one (by norm_num)).mp hw
  case maxdim =>
    unfold boxSides at hw hh
    split_ifs at hw hh
    · exact Or.inl hw
    · exact Or.inr hh

/-- **`get_size` does not under-decode if and only if no factor overflows**: of a size that enlarges neither axis, the
level is then within the cap, and the image halved that often is at least as large as the size, which has pixels. -/
theorem covers_iff (hv : SizeParts.Valid s) (hle : target (some m) s d ≤ (d.w, d.h)) :
    Covers m s d ↔ SizeParts.Defined (some m) s d := by
  have hg := getSize_ok_iff (d := d) (some m) hv
  constructor
  · rintro ⟨r, hr, -⟩
    exact (hg.mp ⟨r, hr⟩).2
  · intro hd
    obtain ⟨r, hr⟩ := hg.mpr ⟨accepted_of_target_le hv hle, hd⟩
    have hs := target_le_reduced (some m) hv hle
    have hp := target_pos (some m) hv d
    rw [← sides_of_getSize hv hr] at hs hp
    rw [← reduce_of_getSize hv hr] at hs
    exact ⟨r, hr, reduce_of_getSize hv hr ▸ exponent_le m s d, hs, hp⟩

theorem three_wide_overflows :
    getSize (some 2147483647) ⟨.pixelsX, false, 0, 0, 3, 0⟩ (.mk 4294967040 1) = .error .overflow ∧
      target (some 2147483647) ⟨.pixelsX, false, 0, 0, 3, 0⟩ (.mk 4294967040 1) = (3, 1) ∧
      ¬ Covers 2147483647 ⟨.pixelsX, false, 0, 0, 3, 0⟩ (.mk 4294967040 1) := by
  have hg : getSize (some 2147483647) ⟨.pixelsX, false, 0, 0, 3, 0⟩ (.mk 4294967040 1) = .error .overflow := by
    decide +kernel
  refine ⟨hg, ?_, ?_⟩
  · have hb : ¬ Hits 4294967040 3 := by decide +kernel
    simp [target, otherOf, hb]
    decide +kernel
  · rintro ⟨r, hr, -⟩
    cases hg.symm.trans hr

theorem thirty_wide_is_covered :
    target (some 2) ⟨.pixelsX, false, 0, 0, 30, 0⟩ (.mk 100 50) ≤ (100, 50) ∧
      Covers 2 ⟨.pixelsX, false, 0, 0, 30, 0⟩ (.mk 100 50) := by
  have hle : target (some 2) ⟨.pixelsX, false, 0, 0, 30, 0⟩ (.mk 100 50) ≤ (100, 50) := by decide +kernel
  have hv : SizeParts.Valid ⟨.pixelsX, false, 0, 0, 30, 0⟩ := by
    show 0 < 30
    decide
  exact ⟨hle, (covers_iff hv hle).mpr (Or.inl (by decide))⟩

end

/-- One more halving goes below, or it is reached. -/
def Spent (side n k : ℕ) : Prop := side ⌈/⌉ 2 ^ (k + 1) < n ∨ side ⌈/⌉ 2 ^ k = n

theorem spent_reach (hn : 0 < n) (hle : n ≤ side) : Spent side n (reach side n) := by
  by_cases hh : Hits side n
  · rw [reach_of_hits hh]
    exact Or.inr hh
  · have hf := (level_le_iff (a := side) hn (level side n)).mp le_rfl
    have hl : level side n ≠ 0 := by
      intro hz
      rw [hz, ceilDiv_two_pow_zero] at hf
      apply hh
      rw [Hits, hz, ceilDiv_two_pow_zero]
      omega
    left
    rw [reach, if_neg hh, Nat.sub_add_cancel (Nat.pos_of_ne_zero hl)]
    exact lt_of_le_of_ne hf hh

theorem not_spent_of_lt_reach (hn : 0 < n) (hk : k < reach side n) : ¬ Spent side n k := by
  have hb : n < side ⌈/⌉ 2 ^ k := by
    rw [← not_le, ← level_le_iff hn, not_le]
    exact lt_of_lt_of_le hk (reach_le_level side n)
  rintro (hls | hht)
  · -- the next halving is at the level, and the level is the reach, so it hits
    have hl : level side n = k + 1 := by
      have hle := (level_le_iff hn (k + 1)).mpr hls.le
      have := reach_le_level side n
      omega
    have hh : ¬ Hits side n := by
      rw [Hits, hl]
      exact hls.ne
    rw [reach, if_neg hh, hl] at hk
    omega
  · omega

/-! ### A width and a height -/

variable {a : ℕ}

theorem pairLevel_of_below (h : Below cap a) (b : ℕ) : pairLevel cap a b = min a b := if_pos h

theorem pairLevel_of_not_below (h : ¬ Below cap a) (b : ℕ) : pairLevel cap a b = 0 := if_neg h

theorem Below.mono {j : ℕ} (h : Below cap k) (hjk : j ≤ k) : Below cap j :=
  fun m hm => lt_of_le_of_lt hjk (h m hm)

/-- The cap plays no part. -/
def Unreached (cap : Option ℕ) (a b : ℕ) : Prop := ∀ m ∈ cap, 0 < m → a = 0 ∨ b = 0 ∨ a < m ∧ b < m

variable {b : ℕ}

theorem Unreached.symm (h : Unreached cap a b) : Unreached cap b a := by
  intro m hm hp
  have := h m hm hp
  omega

theorem pairLevel_eq_min (hz : Below cap 0) (h : Unreached cap a b) : pairLevel cap a b = min a b := by
  by_cases hb : Below cap a
  · exact pairLevel_of_below hb b
  · rw [pairLevel_of_not_below hb]
    unfold Below at hb
    push Not at hb
    obtain ⟨m, hm, hle⟩ := hb
    have := h m hm (hz m hm)
    omega

theorem pairLevel_comm (h : Unreached cap a b) : pairLevel cap b a = pairLevel cap a b := by
  by_cases hz : Below cap 0
  · rw [pairLevel_eq_min hz h, pairLevel_eq_min hz h.symm, min_comm]
  · rw [pairLevel_of_not_below fun hb => hz (hb.mono (Nat.zero_le b)),
      pairLevel_of_not_below fun ha => hz (ha.mono (Nat.zero_le a))]

theorem unreached_of_comm (hc : pairLevel cap b a = pairLevel cap a b)
    (hs : Below cap (pairLevel cap a b) → a ≤ pairLevel cap a b ∨ b ≤ pairLevel cap a b) : Unreached cap a b := by
  intro m hm hp
  by_contra hn
  push Not at hn
  obtain ⟨ha, hb, hr⟩ := hn
  by_cases hbl : Below cap a
  · -- only the second side gets to the cap: exchanged, it holds up the first
    have hcp : ¬ Below cap b := fun h => absurd (h m hm) (not_lt.mpr (hr (hbl m hm)))
    rw [pairLevel_of_below hbl, pairLevel_of_not_below hcp] at hc
    omega
  · -- the first side gets to the cap, and no level is taken
    have hz : Below cap 0 := by
      intro k hk
      cases hk.symm.trans hm
      exact hp
    rw [pairLevel_of_not_below hbl] at hs
    have := hs hz
    omega

section
variable (cap) {s : SizeParts} {d : Dims}

/-- The size with its sides exchanged. -/
def SizeParts.transposed (s : SizeParts) : SizeParts := { s with nx := s.ny, ny := s.nx }

/-- The image with its sides exchanged. -/
def Dims.transposed (d : Dims) : Dims := ⟨d.h, d.w, d.h_pos, d.w_pos⟩

/-- Exchanging the axes changes nothing. -/
def AxesAlike (s : SizeParts) (d : Dims) : Prop :=
  ∃ r r', getSize cap s d = .ok r ∧ getSize cap (SizeParts.transposed s) d.transposed = .ok r' ∧
    r'.reduce = r.reduce ∧ r'.redonly = r.redonly ∧
    (Below cap r.reduce → Spent d.w s.nx r.reduce ∨ Spent d.h s.ny r.reduce)

/-- The `k`-th halving is the last that leaves enough. -/
def Usable (side n k : ℕ) : Prop := n < side ⌈/⌉ 2 ^ (k - 1) ∧ n ≤ side ⌈/⌉ 2 ^ k

theorem usable_iff (hn : 0 < n) (hk : 0 < k) : Usable side n k ↔ k ≤ reach side n := by
  have hle := reach_le_level side n
  have hge := level_le_reach side n
  have hb : n < side ⌈/⌉ 2 ^ (k - 1) ↔ k ≤ level side n := by
    rw [← not_le, ← level_le_iff hn]
    omega
  rw [Usable, hb]
  constructor
  · rintro ⟨hl, ha⟩
    rcases Nat.lt_or_eq_of_le hl with hlt | rfl
    · omega
    · have hh : Hits side n := le_antisymm ((level_le_iff hn _).mp le_rfl) ha
      exact (reach_of_hits hh).ge
  · intro hr
    refine ⟨le_trans hr hle, ?_⟩
    rcases Nat.lt_or_eq_of_le (le_trans hr hle) with hlt | rfl
    · by_contra hls
      exact absurd ((level_le_iff hn k).mpr (not_le.mp hls).le) (not_le.mpr hlt)
    · have hh : Hits side n := by
        by_contra hnt
        rw [reach, if_neg hnt] at hr
        omega
      exact (hh : _ = _).ge

/-- Neither side is halved up to the cap. -/
def CapUnreached (s : SizeParts) (d : Dims) : Prop :=
  ∀ m ∈ cap, 0 < m → ¬ Usable d.w s.nx 1 ∨ ¬ Usable d.h s.ny 1 ∨ ¬ Usable d.w s.nx m ∧ ¬ Usable d.h s.ny m

theorem capUnreached_iff (hx : 0 < s.nx) (hy : 0 < s.ny) :
    CapUnreached cap s d ↔ Unreached cap (reach d.w s.nx) (reach d.h s.ny) := by
  unfold CapUnreached Unreached
  refine forall₂_congr fun m _ => forall_congr' fun hm => ?_
  rw [usable_iff hx Nat.one_pos, usable_iff hy Nat.one_pos, usable_iff hx hm, usable_iff hy hm]
  omega

theorem getSize_of_pixelsXy (hk : s.kind = .pixelsXy) (d : Dims) : getSize cap s d = getSizeXy cap s d := by
  unfold getSize
  rw [hk]

/-- **A size `w,h` treats both axes alike and wastes no level if and only if** no factor is doubled beyond `2 ^ 30`,
and there is no cap, or it is zero, or one side cannot be halved at all, or neither can be halved as often as the cap
allows. -/
theorem axesAlike_iff (hkind : s.kind = .pixelsXy) (hx : 0 < s.nx) (hy : 0 < s.ny) (hw : s.nx ≤ d.w)
    (hh : s.ny ≤ d.h) :
    AxesAlike cap s d ↔ (SizeParts.Defined cap s d ∧ SizeParts.Defined cap (SizeParts.transposed s) d.transposed) ∧
      CapUnreached cap s d := by
  have hg := getSize_of_pixelsXy cap hkind d
  have hg' := getSize_of_pixelsXy cap (s := SizeParts.transposed s) hkind d.transposed
  have hi := getSizeXy_ok_iff (d := d) cap hx hy hkind
  have hi' := getSizeXy_ok_iff (d := d.transposed) cap (s := SizeParts.transposed s) hy hx hkind
  have ha : SizeParts.Accepted s d := Or.inr (by rw [hkind]; exact ⟨hw, hh⟩)
  have ha' : SizeParts.Accepted (SizeParts.transposed s) d.transposed :=
    Or.inr (by rw [show (SizeParts.transposed s).kind = .pixelsXy from hkind]; exact ⟨hh, hw⟩)
  rw [capUnreached_iff cap hx hy]
  constructor
  · rintro ⟨r, r', hr, hr', hre, -, hs⟩
    rw [hg] at hr
    rw [hg'] at hr'
    refine ⟨⟨(hi.mp ⟨r, hr⟩).2, (hi'.mp ⟨r', hr'⟩).2⟩, ?_⟩
    rw [getSizeXy_reduce hx hy hr] at hre hs
    rw [getSizeXy_reduce hy hx hr'] at hre
    refine unreached_of_comm hre fun hbl => ?_
    -- a side that is not yet at its reach has a halving left
    refine (hs hbl).imp (fun h => ?_) fun h => ?_
    · exact not_lt.mp fun hlt => not_spent_of_lt_reach hx hlt h
    · exact not_lt.mp fun hlt => not_spent_of_lt_reach hy hlt h
  · rintro ⟨⟨hd, hd'⟩, hc⟩
    obtain ⟨r, hr⟩ := hi.mpr ⟨ha, hd⟩
    obtain ⟨r', hr'⟩ := hi'.mpr ⟨ha', hd'⟩
    have hre := getSizeXy_reduce hx hy hr
    have hrd : r'.redonly = r.redonly := by
      rw [Bool.eq_iff_iff, getSizeXy_redonly hx hy hw hh hr, getSizeXy_redonly hy hx hh hw hr']
      constructor
      · rintro ⟨hht, hhi, heq, hbl⟩
        exact ⟨hhi, hht, heq.symm, heq ▸ hbl⟩
      · rintro ⟨hhi, hht, heq, hbl⟩
        exact ⟨hht, hhi, heq.symm, heq ▸ hbl⟩
    have hre' : r'.reduce = r.reduce := by
      rw [hre, getSizeXy_reduce hy hx hr']
      exact pairLevel_comm hc
    refine ⟨r, r', hg.trans hr, hg'.trans hr', hre', hrd, fun hbl => ?_⟩
    rw [hre, pairLevel_eq_min (hbl.mono (Nat.zero_le _)) hc]
    rcases le_total (reach d.w s.nx) (reach d.h s.ny) with hle | hle
    · rw [min_eq_left hle]
      exact Or.inl (spent_reach hx hw)
    · rw [min_eq_right hle]
      exact Or.inr (spent_reach hy hh)

theorem height_loop_waits_for_width :
    getSize (some 2) ⟨.pixelsXy, false, 0, 0, 1000, 500⟩ (.mk 4000 1000) = .ok ⟨1000, 500, 0, false⟩ ∧
      getSize (some 2) ⟨.pixelsXy, false, 0, 0, 500, 1000⟩ (.mk 1000 4000) = .ok ⟨500, 1000, 1, false⟩ ∧
      ¬ AxesAlike (some 2) ⟨.pixelsXy, false, 0, 0, 1000, 500⟩ (.mk 4000 1000) := by
  have hw : getSize (some 2) ⟨.pixelsXy, false, 0, 0, 1000, 500⟩ (.mk 4000 1000) = .ok ⟨1000, 500, 0, false⟩ := by
    decide +kernel
  have ht : getSize (some 2) ⟨.pixelsXy, false, 0, 0, 500, 1000⟩ (.mk 1000 4000) = .ok ⟨500, 1000, 1, false⟩ := by
    decide +kernel
  refine ⟨hw, ht, ?_⟩
  rintro ⟨r, r', hr, hr', hrd, -⟩
  cases hw.symm.trans hr
  cases ht.symm.trans hr'
  cases hrd

theorem three_hundred_alike :
    Usable 1000 300 1 ∧ AxesAlike (some 2) ⟨.pixelsXy, false, 0, 0, 300, 300⟩ (.mk 1000 1000) := by
  have ho : Usable 1000 300 1 := ⟨by decide, by decide⟩
  have hu : CapUnreached (some 2) ⟨.pixelsXy, false, 0, 0, 300, 300⟩ (.mk 1000 1000) := by
    intro m hm _
    obtain rfl := Option.mem_some.mp hm
    exact Or.inr (Or.inr ⟨fun h => absurd h.2 (by decide), fun h => absurd h.2 (by decide)⟩)
  have hd : SizeParts.Defined (some 2) ⟨.pixelsXy, false, 0, 0, 300, 300⟩ (.mk 1000 1000) :=
    ⟨Or.inl (by decide), Or.inl (by decide)⟩
  exact ⟨ho, (axesAlike_iff (some 2) rfl (by decide) (by decide) (by decide) (by decide)).mpr ⟨⟨hd, hd⟩, hu⟩⟩

end

end Sipi.Geometry
