import Sipi.Geometry.SingleSize

/-!
# The level of a pyramid

`read_resolutions` and `select_pyramid_level` of `formats/SipiIOTiff.cpp`.
-/

namespace Sipi.Formats

open Sipi.Theory Sipi.Geometry

/-- `reduce_w`: the ratio of the widths in 32 bits. -/
def reduceW (fl : ℚ → ℚ) (imageWidth tmpWidth : ℕ) : ℕ :=
  toSize (lround (fl (fl imageWidth / fl tmpWidth))) % 2 ^ 32

/-- `read_resolutions`. -/
def readResolutions (fl : ℚ → ℚ) (first : ℕ) (rest : List ℕ) : List ℕ := (first :: rest).map (reduceW fl first)

/-- The loop of `select_pyramid_level`. -/
def scan (divisor : ℕ) : ℕ → ℕ → List ℕ → ℕ
  | level, _, [] => level
  | level, i, r :: rs => if r ≤ divisor then scan divisor i (i + 1) rs else level

/-- `1u << reduce_exp`, with the exponent clamped. -/
def divisor (reduceExp : ℤ) : ℕ := 2 ^ min reduceExp.toNat 31

/-- `select_pyramid_level`. -/
def selectLevel (resolutions : List ℕ) (reduceExp : ℤ) : ℕ :=
  if resolutions.isEmpty ∨ reduceExp ≤ 0 then 0 else scan (divisor reduceExp) 0 0 resolutions

/-- It and the levels before it are within the divisor. -/
def Scanned (divisor : ℕ) (rs : List ℕ) (i : ℕ) : Prop := i < rs.length ∧ ∀ j ≤ i, rs.getD j 0 ≤ divisor

theorem scan_eq (divisor level i : ℕ) (rs : List ℕ) :
    scan divisor level i rs =
      if (rs.takeWhile (· ≤ divisor)).length = 0 then level else i + (rs.takeWhile (· ≤ divisor)).length - 1 := by
  induction rs generalizing level i with
  | nil => rfl
  | cons r rs ih =>
    rw [scan]
    by_cases hr : r ≤ divisor
    · rw [if_pos hr, ih, List.takeWhile_cons_of_pos (by simpa using hr), List.length_cons,
        if_neg (Nat.succ_ne_zero _)]
      split <;> omega
    · rw [if_neg hr, List.takeWhile_cons_of_neg (by simpa using hr)]
      rfl

theorem scanned_iff_lt (divisor : ℕ) (rs : List ℕ) (i : ℕ) :
    Scanned divisor rs i ↔ i < (rs.takeWhile (· ≤ divisor)).length := by
  induction rs generalizing i with
  | nil => simp [Scanned]
  | cons r rs ih =>
    by_cases hr : r ≤ divisor
    · rw [List.takeWhile_cons_of_pos (by simpa using hr), List.length_cons]
      cases i with
      | zero => simp [Scanned, hr]
      | succ i =>
        rw [Nat.succ_lt_succ_iff, ← ih, Scanned, Scanned, List.length_cons, Nat.succ_lt_succ_iff]
        refine and_congr_right fun _ => ⟨fun h j hj => h (j + 1) (by omega), fun h j hj => ?_⟩
        cases j with
        | zero => exact hr
        | succ j => exact h j (by omega)
    · rw [List.takeWhile_cons_of_neg (by simpa using hr)]
      refine iff_of_false (fun h => hr (h.2 0 (Nat.zero_le i))) (by simp)

variable {e : ℤ}

theorem scanned_iff (he : 0 < e) {r : ℕ} (hr : r ≤ divisor e) (rs : List ℕ) (i : ℕ) :
    Scanned (divisor e) (r :: rs) i ↔ i ≤ selectLevel (r :: rs) e := by
  have hs : selectLevel (r :: rs) e = scan (divisor e) 0 0 (r :: rs) := if_neg (by simp; omega)
  rw [scanned_iff_lt, hs, scan_eq, List.takeWhile_cons_of_pos (by simpa using hr), List.length_cons,
    if_neg (Nat.succ_ne_zero _)]
  omega

variable {i : ℕ}

theorem Scanned.mono {divisor : ℕ} {rs : List ℕ} {j : ℕ} (h : Scanned divisor rs i) (hji : j ≤ i) :
    Scanned divisor rs j := ⟨lt_of_le_of_lt hji h.1, fun l hl => h.2 l (le_trans hl hji)⟩

theorem divisor_le (he : 0 ≤ e) : (divisor e : ℚ) ≤ 2 ^ e := by
  obtain ⟨n, rfl⟩ := Int.eq_ofNat_of_zero_le he
  have hle : 2 ^ min n 31 ≤ 2 ^ n := Nat.pow_le_pow_right (by norm_num) (min_le_left n 31)
  rw [divisor, Int.toNat_natCast, zpow_natCast]
  exact_mod_cast hle

theorem one_le_divisor (e : ℤ) : 1 ≤ divisor e := Nat.one_le_two_pow

theorem le_last_of_matched {f : ℕ → ℕ} {c : ℕ} (h : ∀ i < c, ∃ k, i < k ∧ k ≤ c ∧ f i ≤ f k) (hi : i ≤ c) :
    f i ≤ f c := by
  -- by induction on the distance to the end
  induction hd : c - i using Nat.strong_induction_on generalizing i with
  | _ d ih =>
    rcases Nat.lt_or_eq_of_le hi with hlt | rfl
    · obtain ⟨k, hik, hkc, hle⟩ := h i hlt
      exact le_trans hle (ih (c - k) (by omega) hkc rfl)
    · exact le_rfl

/-! ### The choice -/

section
variable (fl : ℚ → ℚ) (first : ℕ) (rest : List ℕ)

/-- The ratio of a level, zero if there is none. -/
def ratioAt (i : ℕ) : ℕ := (readResolutions fl first rest).getD i 0

/-- The width of a level, zero if there is none. -/
def widthAt (i : ℕ) : ℕ := (first :: rest).getD i 0

/-- It has the largest ratio within the power of two. -/
structure WellChosen (e : ℤ) (c : ℕ) : Prop where
  there : c < (first :: rest).length
  one_le : 1 ≤ ratioAt fl first rest c
  fits : (ratioAt fl first rest c : ℚ) ≤ 2 ^ e
  largest : ∀ j < (first :: rest).length, (ratioAt fl first rest j : ℚ) ≤ 2 ^ e →
    ratioAt fl first rest j ≤ ratioAt fl first rest c
  flat : (∀ j, 0 < j → ratioAt fl first rest j < 2) → c = 0
  alike : widthAt first rest c = first → c = 0

/-- An order in which the selector finds the level. -/
structure InOrder (e : ℤ) : Prop where
  nonneg : 0 ≤ e
  reached : 0 < e → ∀ j < (first :: rest).length, (ratioAt fl first rest j : ℚ) ≤ 2 ^ e →
    ∃ i, Scanned (divisor e) (readResolutions fl first rest) i ∧ ratioAt fl first rest j ≤ ratioAt fl first rest i
  matched : 0 < e → ∀ i, Scanned (divisor e) (readResolutions fl first rest) (i + 1) →
    ∃ k, i < k ∧ Scanned (divisor e) (readResolutions fl first rest) k ∧
      ratioAt fl first rest i ≤ ratioAt fl first rest k
  pages : 0 < e → Scanned (divisor e) (readResolutions fl first rest) 1 →
    (∃ i, Scanned (divisor e) (readResolutions fl first rest) i ∧ 2 ≤ ratioAt fl first rest i) ∨
    ((∀ i, 0 < i → Scanned (divisor e) (readResolutions fl first rest) i → widthAt first rest i = first →
        Scanned (divisor e) (readResolutions fl first rest) (i + 1)) ∧
      ∃ j, 0 < j ∧ 2 ≤ ratioAt fl first rest j)

end

section
variable {fl : ℚ → ℚ} {first : ℕ} {rest : List ℕ}

theorem reduceW_self (hfl : Rounded.KeepsPowers fl) (hf : 0 < first) : reduceW fl first first = 1 := by
  have ho : fl 1 = 1 := by
    have h := hfl.pow 0 (by norm_num) (by norm_num)
    rwa [zpow_zero] at h
  have hp : fl first ≠ 0 := (lt_of_lt_of_le one_pos (Rounded.one_le_fl hfl hf)).ne'
  rw [reduceW, div_self hp, ho]
  decide +kernel

theorem ratioAt_zero (rest : List ℕ) (hfl : Rounded.KeepsPowers fl) (hf : 0 < first) : ratioAt fl first rest 0 = 1 :=
  reduceW_self hfl hf

theorem ratioAt_of_width (hfl : Rounded.KeepsPowers fl) (hf : 0 < first)
    (h : widthAt first rest i = first) : ratioAt fl first rest i = 1 := by
  rw [widthAt, List.getD_eq_getElem?_getD] at h
  rw [ratioAt, readResolutions, List.getD_eq_getElem?_getD, List.getElem?_map]
  cases hg : (first :: rest)[i]? with
  | none =>
    rw [hg] at h
    exact absurd h hf.ne
  | some w =>
    rw [hg] at h
    obtain rfl : w = first := h
    exact reduceW_self hfl hf

theorem scanned_iff_le (rest : List ℕ) (hfl : Rounded.KeepsPowers fl) (hf : 0 < first) (he : 0 < e) (i : ℕ) :
    Scanned (divisor e) (readResolutions fl first rest) i ↔ i ≤ selectLevel (readResolutions fl first rest) e := by
  have ho : reduceW fl first first ≤ divisor e := by
    rw [reduceW_self hfl hf]
    exact one_le_divisor e
  exact scanned_iff he ho _ i

theorem ratioAt_le_of_scanned (he : 0 < e)
    (h : Scanned (divisor e) (readResolutions fl first rest) i) : (ratioAt fl first rest i : ℚ) ≤ 2 ^ e := by
  have hle : ratioAt fl first rest i ≤ divisor e := h.2 i le_rfl
  exact le_trans (by exact_mod_cast hle) (divisor_le he.le)

section
variable (hfl : Rounded.KeepsPowers fl)
include hfl

theorem wellChosen_of_inOrder (hf : 0 < first) (he : 0 < e)
    (h : InOrder fl first rest e) : WellChosen fl first rest e (selectLevel (readResolutions fl first rest) e) := by
  have hs := fun i => scanned_iff_le rest hfl hf he i
  generalize selectLevel (readResolutions fl first rest) e = c at hs ⊢
  have hl := (hs c).mpr le_rfl
  have hm : ∀ i ≤ c, ratioAt fl first rest i ≤ ratioAt fl first rest c := by
    intro i hi
    apply le_last_of_matched (f := ratioAt fl first rest) _ hi
    intro j hj
    obtain ⟨k, hjk, hk, hle⟩ := h.matched he j ((hs (j + 1)).mpr hj)
    exact ⟨k, hjk, (hs k).mp hk, hle⟩
  have hz := ratioAt_zero rest hfl hf
  refine ⟨?_, ?_, ratioAt_le_of_scanned he hl, ?_, ?_, ?_⟩
  · simpa [readResolutions] using hl.1
  · exact hz ▸ hm 0 (Nat.zero_le c)
  · intro j hj hle
    obtain ⟨i, hi, hji⟩ := h.reached he j hj hle
    exact le_trans hji (hm i ((hs i).mp hi))
  · intro hft
    by_contra hne
    rcases h.pages he ((hs 1).mpr (by omega)) with ⟨i, -, ht⟩ | ⟨-, j, hj, ht⟩
    · have hi : 0 < i := by
        rw [Nat.pos_iff_ne_zero]
        rintro rfl
        omega
      exact absurd (hft i hi) (not_lt.mpr ht)
    · exact absurd (hft j hj) (not_lt.mpr ht)
  · intro hw
    by_contra hne
    rcases h.pages he ((hs 1).mpr (by omega)) with ⟨i, hi, ht⟩ | ⟨hp, -⟩
    · have hr := ratioAt_of_width hfl hf hw
      have := hm i ((hs i).mp hi)
      omega
    · have := (hs (c + 1)).mp (hp c (by omega) hl hw)
      omega

theorem inOrder_of_wellChosen (hf : 0 < first)
    (h : WellChosen fl first rest e (selectLevel (readResolutions fl first rest) e)) : InOrder fl first rest e := by
  have hnn : 0 ≤ e := by
    by_contra hng
    have hsm : (2 : ℚ) ^ e < 1 := zpow_lt_one_of_neg₀ (by norm_num) (not_le.mp hng)
    have ho : (1 : ℚ) ≤ ratioAt fl first rest (selectLevel (readResolutions fl first rest) e) := by
      exact_mod_cast h.one_le
    have := h.fits
    linarith
  have hs := fun he i => scanned_iff_le rest hfl hf (e := e) he i
  generalize selectLevel (readResolutions fl first rest) e = c at h hs
  refine ⟨hnn, fun he j hj hle => ⟨c, (hs he c).mpr le_rfl, h.largest j hj hle⟩, ?_, ?_⟩
  · intro he i hi
    have hic := (hs he (i + 1)).mp hi
    refine ⟨c, hic, (hs he c).mpr le_rfl, h.largest i ?_ ?_⟩
    · exact lt_trans hic h.there
    · exact ratioAt_le_of_scanned he (hi.mono (Nat.le_succ i))
  · intro he ho
    have hc : c ≠ 0 := by
      have := (hs he 1).mp ho
      omega
    right
    constructor
    · intro i hi hi' hw
      rw [hs he] at hi' ⊢
      rcases Nat.lt_or_eq_of_le hi' with hlt | rfl
      · exact hlt
      · exact absurd (h.alike hw) hc
    · by_contra hn
      push Not at hn
      exact hc (h.flat hn)

theorem wellChosen_zero (hf : 0 < first) :
    WellChosen fl first rest 0 (selectLevel (readResolutions fl first rest) 0) := by
  have hs : selectLevel (readResolutions fl first rest) 0 = 0 := if_pos (Or.inr le_rfl)
  have hz := ratioAt_zero rest hfl hf
  rw [hs]
  refine ⟨Nat.succ_pos _, hz.ge, by rw [hz]; norm_num, fun j _ hle => ?_, fun _ => rfl, fun _ => rfl⟩
  rw [hz]
  rw [zpow_zero] at hle
  exact_mod_cast hle

theorem wellChosen_iff (hf : 0 < first) (e : ℤ) :
    WellChosen fl first rest e (selectLevel (readResolutions fl first rest) e) ↔ InOrder fl first rest e := by
  constructor
  · exact inOrder_of_wellChosen hfl hf
  · intro h
    rcases h.nonneg.eq_or_lt with rfl | he
    · exact wellChosen_zero hfl hf
    · exact wellChosen_of_inOrder hfl hf he h

theorem inOrder_of_rising (hfr : 0 < first) (hn : 0 ≤ e) (hle : e ≤ 31)
    (hr : ∀ i j, i < j → j < (first :: rest).length → ratioAt fl first rest i < ratioAt fl first rest j) :
    InOrder fl first rest e := by
  have hl : (readResolutions fl first rest).length = (first :: rest).length := by simp [readResolutions]
  have hd : (divisor e : ℚ) = 2 ^ e := by
    obtain ⟨n, rfl⟩ := Int.eq_ofNat_of_zero_le hn
    rw [divisor, Int.toNat_natCast, min_eq_left (by omega), zpow_natCast]
    push_cast
    rfl
  refine ⟨hn, fun _ j hj hf => ⟨j, ⟨hl ▸ hj, fun i hi => ?_⟩, le_rfl⟩, fun _ i hi => ?_,
    fun _ ho => ?_⟩
  · rw [← hd] at hf
    have hf' : ratioAt fl first rest j ≤ divisor e := by exact_mod_cast hf
    rcases Nat.lt_or_eq_of_le hi with hlt | rfl
    · exact le_trans (hr i j hlt hj).le hf'
    · exact hf'
  · exact ⟨i + 1, Nat.lt_succ_self i, hi, (hr i (i + 1) (Nat.lt_succ_self i) (hl ▸ hi.1)).le⟩
  · have ht := hr 0 1 Nat.one_pos (hl ▸ ho.1)
    rw [ratioAt_zero rest hfl hfr] at ht
    exact Or.inl ⟨1, ho, ht⟩

end

end

theorem mem_half_sub {n k : ℕ} (hk : k ≤ 100) (h : (2 * n + 1) * 2 ^ k ≤ 2 ^ 24) :
    single.Mem (n + 1 / 2 - 1 / 2 ^ (k + 1)) := by
  have hv : (n + 1 / 2 - 1 / 2 ^ (k + 1) : ℚ) = ((2 * n + 1) * 2 ^ k - 1 : ℤ) * 2 ^ (-(k + 1 : ℤ)) := by
    have hp : (2 : ℚ) ^ (k + 1) = 2 * 2 ^ k := by rw [pow_succ, mul_comm]
    rw [zpow_neg, show (k + 1 : ℤ) = (k + 1 : ℕ) by push_cast; rfl, zpow_natCast, hp]
    push_cast
    field_simp
  rw [hv]
  refine Format.mem_of_abs_le ?_ ?_
  · have hps : (1 : ℤ) ≤ (2 * n + 1) * 2 ^ k := by
      exact_mod_cast Nat.mul_pos (Nat.succ_pos (2 * n)) (Nat.two_pow_pos k)
    have hle : ((2 * n + 1) * 2 ^ k : ℤ) ≤ 2 ^ 24 := by exact_mod_cast h
    rw [abs_of_nonneg (by linarith)]
    exact le_trans (by linarith) hle
  · have hm : single.minExp = -149 := rfl
    omega

theorem div_le_half_sub {a b n k : ℕ} (hb : 0 < b) (h : 2 * a + 1 ≤ (2 * n + 1) * b) (hk : b ≤ 2 ^ k) :
    (a / b : ℚ) ≤ n + 1 / 2 - 1 / 2 ^ (k + 1) := by
  have hbq : (0 : ℚ) < b := by exact_mod_cast hb
  have hq : (2 * a + 1 : ℚ) ≤ (2 * n + 1) * b := by exact_mod_cast h
  have hkq : (b : ℚ) ≤ 2 ^ k := by exact_mod_cast hk
  calc (a / b : ℚ) ≤ ((2 * n + 1) * b - 1) / 2 / b := by gcongr; linarith
    _ = n + 1 / 2 - 1 / (2 * b) := by field_simp
    _ ≤ n + 1 / 2 - 1 / 2 ^ (k + 1) := by rw [pow_succ']; gcongr

theorem floor_round_div {a b : ℕ} (hb : 0 < b) (hab : a + b ≤ 2 ^ 22) :
    ⌊single.round (a / b) + 1 / 2⌋ = ⌊(a / b : ℚ) + 1 / 2⌋ := by
  have hbq : (0 : ℚ) < b := by exact_mod_cast hb
  obtain ⟨n, hn⟩ : ∃ n : ℕ, ⌊(a / b : ℚ) + 1 / 2⌋ = n :=
    ⟨_, (Int.toNat_of_nonneg (Int.floor_nonneg.mpr (by positivity))).symm⟩
  obtain ⟨hlo, hhi⟩ := Int.floor_eq_iff.mp hn
  rw [Int.cast_natCast] at hlo hhi
  have hln : 2 * n * b ≤ 2 * a + b := by
    have h : (n - 1 / 2 : ℚ) ≤ a / b := by linarith
    rw [le_div_iff₀ hbq] at h
    exact_mod_cast (by linarith : (2 * n * b : ℚ) ≤ 2 * a + b)
  have hhn : 2 * a + 1 ≤ (2 * n + 1) * b := by
    have h : (a / b : ℚ) < n + 1 / 2 := by linarith
    rw [div_lt_iff₀ hbq] at h
    exact_mod_cast (by linarith : (2 * a : ℚ) < (2 * n + 1) * b)
  have hnb : 2 * n ≤ 2 * n * b := Nat.le_mul_of_pos_right (2 * n) hb
  -- both bounds of the whole number are numbers of the format
  rw [hn, Int.floor_eq_iff, Int.cast_natCast]
  constructor
  · have hm : single.Mem ((2 * n - 1 : ℤ) * 2 ^ (-1 : ℤ)) := by
      refine Format.mem_of_abs_le ?_ (by decide)
      change _ ≤ (2 : ℤ) ^ 24
      rw [abs_le]
      omega
    have hl := Format.le_round (x := (a / b : ℚ)) hm (by rw [zpow_neg_one]; push_cast; linarith)
    rw [zpow_neg_one] at hl
    push_cast at hl
    linarith
  · set k := Nat.log 2 b + 1 with hk
    have hkl : 2 ^ k ≤ 2 * b := by
      rw [hk, pow_succ']
      exact Nat.mul_le_mul_left 2 (Nat.pow_log_le_self 2 hb.ne')
    have hku : b ≤ 2 ^ k := (Nat.lt_pow_succ_log_self (by norm_num) b).le
    have hkb : k < 24 := (Nat.pow_lt_pow_iff_right (a := 2) (by norm_num)).mp (by omega)
    have hm : (2 * n + 1) * 2 ^ k ≤ 2 ^ 24 := by
      calc (2 * n + 1) * 2 ^ k ≤ (2 * n + 1) * (2 * b) := Nat.mul_le_mul_left _ hkl
        _ = 2 * (2 * n * b) + 2 * b := by ring
        _ ≤ 2 ^ 24 := by omega
    have hu := Format.round_le (mem_half_sub (by omega) hm) (div_le_half_sub hb hhn hku)
    have hps : (0 : ℚ) < 1 / 2 ^ (k + 1) := by positivity
    linarith

theorem reduceW_single (full level : Dims) (h : full.w + level.w ≤ 2 ^ 22) :
    reduceW single.round full.w level.w = ratio full level := by
  have hw := level.w_pos
  rw [reduceW, ratio, Rounded.single_natCast (by omega), Rounded.single_natCast (by omega), lround, lround,
    floor_round_div hw h]

/-- **The level is well chosen if and only if** no fitting ratio is hidden behind one that does not fit, no scanned
ratio is larger than all that are scanned after it, and a page like the first does not end the scan. -/
theorem level_wellChosen_iff {first : ℕ} (hfirst : 0 < first) (rest : List ℕ) (e : ℤ) :
    WellChosen single.round first rest e (selectLevel (readResolutions single.round first rest) e) ↔
      InOrder single.round first rest e := wellChosen_iff Rounded.keepsPowers_single hfirst e

theorem wide_page_is_chosen :
    (selectLevel (readResolutions single.round 100 [300]) 1 = 1 ∧ ratioAt single.round 100 [300] 1 = 0 ∧
        ¬ WellChosen single.round 100 [300] 1 1) ∧
      (selectLevel (readResolutions single.round 100 [100]) 1 = 1 ∧ ¬ WellChosen single.round 100 [100] 1 1) ∧
      selectLevel (readResolutions single.round 800 [100, 400]) 2 = 0 ∧ ratioAt single.round 800 [100, 400] 2 = 2 ∧
        ¬ WellChosen single.round 800 [100, 400] 2 0 := by
  have hw : ratioAt single.round 100 [300] 1 = 0 := by decide +kernel
  have ht : ratioAt single.round 800 [100, 400] 2 = 2 := by decide +kernel
  refine ⟨⟨by decide +kernel, hw, fun h => ?_⟩, ⟨by decide +kernel, fun h => ?_⟩, by decide +kernel, ht,
    fun h => ?_⟩
  · have ho := h.one_le
    omega
  · exact absurd (h.alike rfl) Nat.one_ne_zero
  · have ho : ratioAt single.round 800 [100, 400] 0 = 1 := by decide +kernel
    have hl := h.largest 2 (by decide) (by rw [ht]; norm_num)
    omega

theorem pyramid_level_is_found :
    WellChosen single.round 800 [400, 100] 2 (selectLevel (readResolutions single.round 800 [400, 100]) 2) := by
  refine (level_wellChosen_iff (by decide) [400, 100] 2).mpr ?_
  apply inOrder_of_rising Rounded.keepsPowers_single (by decide) (by decide) (by decide)
  have hr : readResolutions single.round 800 [400, 100] = [1, 2, 8] := by decide +kernel
  have hrs : ∀ j < 3, ∀ i < j, [1, 2, 8].getD i 0 < [1, 2, 8].getD j 0 := by decide
  intro i j hij hj
  rw [ratioAt, ratioAt, hr]
  exact hrs j hj i hij

end Sipi.Formats
