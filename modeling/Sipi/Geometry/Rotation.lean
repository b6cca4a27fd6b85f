import Sipi.Theory.Loops
import Sipi.Theory.Rounding
import Sipi.Geometry.Region

/-!
# The angle of a rotation

`SipiImage::rotate` in `src/SipiImage.cpp` begins by bringing the angle into a full turn:

    while (angle < 0.) angle += 360.;
    while (angle >= 360.) angle -= 360.;

The angle is a `float` to which the parser gives no bound.
-/

namespace Sipi.Geometry

open Sipi.Theory Sipi.Iiif

/-- `float`. -/
def single : Format := ⟨24, by decide, -149, 128⟩

/-- `double`. -/
def double : Format := ⟨53, by decide, -1074, 1024⟩

/-- A `float`. -/
abbrev Single := single.Value

/-- `angle += c` for a constant of type `double`. -/
def plus (c : ℚ) (angle : Single) : Single := ((angle.convert double).add c).convert single

/-- The two loops, each for at most so many tests. -/
def normalizeAngle (fuel : ℕ) (angle : Single) : Option Single :=
  (whileLoop (fun a => a.lt 0) (plus 360) fuel angle).bind (whileLoop (fun a => a.ge 360) (plus (-360)) fuel)

/-- An angle in `[0, 360)`. -/
def InTurn (a : Single) : Prop := ∃ q h, a = .finite q h ∧ 0 ≤ q ∧ q < 360

section Minus

variable {a : ℚ}

theorem double_mem_of_single (ha : single.Mem a) : double.Mem a := by
  obtain ⟨m, e, hm, he, rfl⟩ := ha
  have he' : (-149 : ℤ) ≤ e := he
  have hm' : |m| < 2 ^ 24 := hm
  exact ⟨m, e, hm'.trans (by norm_num [double]), show (-1074 : ℤ) ≤ e by omega, rfl⟩

theorem double_abs_lt (h : |a| < 2 ^ 200) : |a| < 2 ^ double.limit :=
  h.trans (pow_lt_pow_right₀ (by norm_num) (by norm_num [double]))

theorem plus_finite (ha : single.Mem a ∧ |a| < 2 ^ single.limit) (hge : 360 ≤ a) :
    plus (-360) (.finite a ha) = single.ofRat (double.round (a - 360)) := by
  have hab : |a| < 2 ^ 128 := ha.2
  have hm := double_mem_of_single ha.1
  have hl : (2 : ℚ) ^ 128 < 2 ^ 200 := pow_lt_pow_right₀ (by norm_num) (by norm_num)
  have hp : double.round (a - 360) ≤ a := Format.round_le hm (by linarith)
  have hn : 0 ≤ double.round (a - 360) := Format.le_round double.mem_zero (by linarith)
  have hc : (Format.Value.finite a ha : Single).convert double =
      .finite a ⟨hm, double_abs_lt (hab.trans hl)⟩ := Format.ofRat_of_mem _
  have hb : |double.round (a - 360)| < 2 ^ double.limit := by
    refine double_abs_lt ?_
    rw [abs_of_nonneg hn]
    linarith [le_abs_self a]
  have hd : double.ofRat (a + -360) = .finite (double.round (a - 360)) ⟨double.round_mem _, hb⟩ :=
    Format.ofRat_of_round _ (by rw [sub_eq_add_neg])
  rw [plus, hc]
  show (double.ofRat (a + -360)).convert single = _
  rw [hd]
  rfl

theorem double_mem_of_grid {n : ℤ} (h : |(n : ℚ)| < 2 ^ 53) {e : ℤ} (he : -1074 ≤ e) : double.Mem (n * 2 ^ e) :=
  ⟨n, e, by show |n| < 2 ^ 53; exact_mod_cast h, he, rfl⟩

theorem double_mem_minus (ha : single.Mem a) (hge : 360 ≤ a) (hle : a ≤ 2 ^ 33) : double.Mem (a - 360) := by
  -- an angle of 360 or more is a multiple of `2 ^ (-15)`
  obtain ⟨n, hn⟩ := Format.exists_eq_mul_of_lt (k := -15) ha (by norm_num [single]; linarith)
  have hsb : a - 360 = ((n - 360 * 2 ^ 15 : ℤ) : ℚ) * 2 ^ (-15 : ℤ) := by
    rw [hn]
    push_cast
    norm_num
    ring
  rw [hsb]
  refine double_mem_of_grid ?_ (by norm_num)
  have hs : ((n - 360 * 2 ^ 15 : ℤ) : ℚ) = (a - 360) * 2 ^ 15 := by
    rw [hsb]
    norm_num
    ring
  rw [hs, abs_of_nonneg (by nlinarith)]
  norm_num at hle ⊢
  linarith

theorem exists_below (ha : single.Mem a) (hge : 360 ≤ a) (hle : a ≤ 2 ^ 33) :
    ∃ b, single.Mem b ∧ |b - (a - 360)| < 360 := by
  obtain ⟨m, e, hm, he, rfl⟩ := ha
  have hm' : |m| < 2 ^ 24 := hm
  have hp : (0 : ℚ) < 2 ^ e := Format.two_zpow_pos e
  have hmp : 0 < m := by
    by_contra hn
    have hc : (m : ℚ) ≤ 0 := by exact_mod_cast not_lt.mp hn
    nlinarith
  rw [abs_of_pos hmp] at hm'
  rcases lt_or_ge e 9 with hlt | hl
  · refine ⟨((m - 1 : ℤ) : ℚ) * 2 ^ e, ⟨m - 1, e, ?_, he, rfl⟩, ?_⟩
    · show |m - 1| < 2 ^ 24
      rw [abs_of_nonneg (by omega)]
      omega
    · have hs : (2 : ℚ) ^ e ≤ 2 ^ (8 : ℤ) := zpow_le_zpow_right₀ (by norm_num) (by omega)
      norm_num at hs
      have heq : ((m - 1 : ℤ) : ℚ) * 2 ^ e - (m * 2 ^ e - 360) = 360 - 2 ^ e := by
        push_cast
        ring
      rw [heq, abs_lt]
      constructor <;> linarith
  · obtain ⟨k, -, hk⟩ := Format.exists_two_zpow_eq hl
    have hl' : (m * 2 ^ k : ℤ) ≤ 2 ^ 24 := by
      rw [hk] at hle
      norm_num at hle
      have hc : ((m * 2 ^ k : ℤ) : ℚ) ≤ ((2 ^ 24 : ℤ) : ℚ) := by
        push_cast
        linarith
      exact_mod_cast hc
    have ho : 0 < (m * 2 ^ k : ℤ) := by positivity
    refine ⟨((m * 2 ^ k - 1 : ℤ) : ℚ) * 2 ^ (9 : ℤ), ⟨m * 2 ^ k - 1, 9, ?_, by norm_num [single], rfl⟩, ?_⟩
    · show |m * 2 ^ k - 1| < 2 ^ 24
      rw [abs_of_nonneg (by omega)]
      omega
    · have heq : ((m * 2 ^ k - 1 : ℤ) : ℚ) * 2 ^ (9 : ℤ) - (m * 2 ^ e - 360) = -152 := by
        rw [hk]
        push_cast
        ring
      rw [heq]
      norm_num

theorem minus_lt (ha : single.Mem a ∧ |a| < 2 ^ single.limit) (hge : 360 ≤ a) (hle : a ≤ 2 ^ 33) :
    ∃ b hb, plus (-360) (.finite a ha) = .finite b hb ∧ 0 ≤ b ∧ b < a := by
  have he : double.round (a - 360) = a - 360 := Format.round_of_mem (double_mem_minus ha.1 hge hle)
  obtain ⟨c, hc, hnr⟩ := exists_below ha.1 hge hle
  have hbs := (single.round_nearest (a - 360) hc).trans_lt hnr
  have hlt : single.round (a - 360) < a := by linarith [(abs_lt.mp hbs).2]
  have hn : 0 ≤ single.round (a - 360) := Format.le_round single.mem_zero (by linarith)
  have hbn : |single.round (a - 360)| < 2 ^ single.limit := by
    rw [abs_of_nonneg hn]
    exact hlt.trans_le ((le_abs_self a).trans ha.2.le)
  refine ⟨single.round (a - 360), ⟨single.round_mem _, hbn⟩, ?_, hn, hlt⟩
  rw [plus_finite ha hge, he]
  exact Format.ofRat_of_round _ rfl

theorem minus_eq_self (ha : single.Mem a ∧ |a| < 2 ^ single.limit) (hlt : 2 ^ 33 < a) :
    plus (-360) (.finite a ha) = .finite a ha := by
  have hl' : (8589934592 : ℚ) < a := by
    norm_num at hlt
    exact hlt
  rw [plus_finite ha (by linarith)]
  refine Format.ofRat_of_round ha ?_
  have hle : double.round (a - 360) ≤ a := Format.round_le (double_mem_of_single ha.1) (by linarith)
  rcases le_or_gt a (2 ^ 52) with hs | hl
  · -- an integer: the difference is exact, and neighbours are 1024 apart
    obtain ⟨n, hn⟩ := Format.exists_eq_mul_of_lt (k := 0) ha.1 (by norm_num [single]; linarith)
    rw [zpow_zero, mul_one] at hn
    have hm : double.Mem (a - 360) := by
      have hsb : a - 360 = ((n - 360 : ℤ) : ℚ) * 2 ^ (0 : ℤ) := by
        rw [hn]
        push_cast
        ring
      rw [hsb]
      refine double_mem_of_grid ?_ (by norm_num)
      push_cast
      rw [← hn, abs_of_nonneg (by linarith)]
      norm_num at hs ⊢
      linarith
    rw [Format.round_of_mem hm]
    refine Format.round_eq_of_gap (k := 10) ha.1 ?_ (by linarith) (by norm_num)
    norm_num [single]
    linarith
  · -- the first rounding stays within two turns, and neighbours are much farther apart
    have hb := double.round_nearest (a - 360) (double_mem_of_single ha.1)
    rw [show a - (a - 360) = 360 by ring, abs_of_nonneg (show (0 : ℚ) ≤ 360 by norm_num)] at hb
    refine Format.round_eq_of_gap (k := 29) ha.1 ?_ hle ?_
    · norm_num [single] at hl ⊢
      linarith
    · norm_num
      linarith [(abs_le.mp hb).1]

end Minus

theorem round_half : single.round (2 ^ 33 + 512) = 2 ^ 33 := by
  have hl : Int.log 2 |(2 ^ 33 + 512 : ℚ)| = 33 := by
    rw [abs_of_pos (by norm_num), show (2 ^ 33 + 512 : ℚ) = ((8589935104 : ℕ) : ℚ) by norm_num, Int.log_natCast,
      Nat.log_eq_of_pow_le_of_lt_pow (m := 33) (by norm_num) (by norm_num)]
    rfl
  have hp : single.lastPlace (2 ^ 33 + 512) = 10 := by
    rw [Format.lastPlace, hl]
    decide
  have hf : ⌊(8388608 + 1 / 2 : ℚ)⌋ = 8388608 := by
    rw [Int.floor_eq_iff]
    constructor <;> norm_num
  have he : halfEven (8388608 + 1 / 2) = 8388608 := by
    rw [halfEven, hf]
    norm_num
  have hs : (2 ^ 33 + 512 : ℚ) / 2 ^ (10 : ℤ) = 8388608 + 1 / 2 := by norm_num
  rw [Format.round, hp, hs, he]
  norm_num

theorem mem_next : single.Mem (2 ^ 33 + 1024) :=
  ⟨2 ^ 23 + 1, 10, by show |(2 ^ 23 + 1 : ℤ)| < 2 ^ 24; norm_num, by show (-149 : ℤ) ≤ 10; norm_num, by norm_num⟩

theorem round_le_iff (v : ℚ) : single.round v ≤ 2 ^ 33 ↔ v ≤ 2 ^ 33 + 512 := by
  constructor
  · intro hr
    by_contra hgt
    push Not at hgt
    rcases le_or_gt (2 ^ 33 + 1024) v with hl | hbt
    · have := Format.le_round mem_next hl
      linarith
    · -- the next angle is nearer
      have hb := single.round_nearest v mem_next
      rw [abs_of_nonpos (by linarith), abs_of_nonneg (by linarith)] at hb
      linarith
  · intro hle
    have hm := single.round_mono hle
    rwa [round_half] at hm

/-! ### The loops -/

/-- A number in units of the least positive one. -/
def units : Single → ℕ
  | .finite q _ => ⌊q * 2 ^ 149⌋.toNat
  | .inf _ => 0
  | .nan => 0

theorem exists_units {a : ℚ} (ha : single.Mem a) : ∃ n : ℤ, a * 2 ^ 149 = n := by
  obtain ⟨m, e, _, he, rfl⟩ := ha
  obtain ⟨k, -, hk⟩ := Format.exists_two_zpow_eq (show (-149 : ℤ) ≤ e from he)
  refine ⟨m * 2 ^ k, ?_⟩
  rw [hk]
  push_cast
  norm_num
  ring

theorem units_lt {a b : ℚ} (ha : single.Mem a ∧ |a| < 2 ^ single.limit) (hb : single.Mem b ∧ |b| < 2 ^ single.limit)
    (hnn : 0 ≤ b) (hlt : b < a) : units (.finite b hb) < units (.finite a ha) := by
  obtain ⟨n, hn⟩ := exists_units ha.1
  obtain ⟨k, hk⟩ := exists_units hb.1
  have hk0 : 0 ≤ k := by
    have hc : (0 : ℚ) ≤ k := by rw [← hk]; positivity
    exact_mod_cast hc
  have hkn : k < n := by
    have hc : (k : ℚ) < n := by
      rw [← hk, ← hn]
      exact mul_lt_mul_of_pos_right hlt (by positivity)
    exact_mod_cast hc
  rw [units, units, hn, hk, Int.floor_intCast, Int.floor_intCast]
  omega

/-- An angle from which the second loop ends. -/
def Small (a : Single) : Prop := ∃ q h, a = .finite q h ∧ 0 ≤ q ∧ q ≤ 2 ^ 33

/-- An angle from which it does not. -/
def Large (a : Single) : Prop := (∃ q h, a = .finite q h ∧ 2 ^ 33 < q) ∨ a = .inf false

theorem small_step {a : Single} (ha : Small a) (hge : a.ge 360 = true) :
    Small (plus (-360) a) ∧ units (plus (-360) a) < units a := by
  obtain ⟨q, h, rfl, _, hle⟩ := ha
  obtain ⟨b, hb, heq, hn, hlt⟩ := minus_lt h (of_decide_eq_true hge) hle
  rw [heq]
  exact ⟨⟨b, hb, rfl, hn, hlt.le.trans hle⟩, units_lt h hb hn hlt⟩

theorem large_step {a : Single} (ha : Large a) : a.ge 360 = true ∧ Large (plus (-360) a) := by
  rcases ha with ⟨q, h, rfl, hlt⟩ | rfl
  · refine ⟨decide_eq_true (by norm_num at hlt; linarith), ?_⟩
    rw [minus_eq_self h hlt]
    exact Or.inl ⟨q, h, rfl, hlt⟩
  · exact ⟨rfl, Or.inr rfl⟩

theorem normalizeAngle_of_not_lt {a : Single} (h : a.lt 0 = false) (n : ℕ) :
    normalizeAngle (n + 1) a = whileLoop (fun a => a.ge 360) (plus (-360)) (n + 1) a := by
  rw [normalizeAngle, whileLoop_of_false (fun a => a.lt 0) (plus 360) h]
  rfl

theorem normalizeAngle_of_small {a : Single} (ha : Small a) : ∃ n b, normalizeAngle n a = some b ∧ InTurn b := by
  have he : ∃ n b, whileLoop (fun a : Single => a.ge 360) (plus (-360)) (n + 1) a = some b ∧ Small b ∧
      b.ge 360 = false := whileLoop_of_variant units (fun _ => small_step) ha
  obtain ⟨n, b, hl, ⟨q, h, rfl, hn, _⟩, het⟩ := he
  have hlt : a.lt 0 = false := by
    obtain ⟨q', h', rfl, hn', _⟩ := ha
    exact decide_eq_false (not_lt.mpr hn')
  refine ⟨n + 1, _, ?_, q, h, rfl, hn, not_le.mp (of_decide_eq_false het)⟩
  rw [normalizeAngle_of_not_lt hlt, hl]

theorem normalizeAngle_of_large {a : Single} (ha : Large a) (n : ℕ) : normalizeAngle n a = none := by
  cases n with
  | zero => rfl
  | succ n =>
    have hlt : a.lt 0 = false := by
      rcases ha with ⟨q, h, rfl, hlt⟩ | rfl
      · exact decide_eq_false (by norm_num at hlt ⊢; linarith)
      · rfl
    rw [normalizeAngle_of_not_lt hlt]
    exact whileLoop_eq_none Large (fun _ => large_step) (n + 1) ha

theorem small_of_le {v : ℚ} (hv : 0 ≤ v) (hle : v ≤ 2 ^ 33 + 512) : Small (single.ofRat v) := by
  have hr := (round_le_iff v).mpr hle
  have hn : 0 ≤ single.round v := Format.le_round single.mem_zero hv
  have hb : |single.round v| < 2 ^ single.limit := by
    rw [abs_of_nonneg hn]
    exact hr.trans_lt (pow_lt_pow_right₀ (by norm_num) (by norm_num [single]))
  exact ⟨single.round v, ⟨single.round_mem v, hb⟩, Format.ofRat_of_round _ rfl, hn, hr⟩

theorem large_of_lt {v : ℚ} (hlt : 2 ^ 33 + 512 < v) : Large (single.ofRat v) := by
  have hr : 2 ^ 33 < single.round v := not_le.mp ((round_le_iff v).not.mpr (not_le.mpr hlt))
  unfold Format.ofRat
  split
  · exact Or.inl ⟨_, _, rfl, hr⟩
  · refine Or.inr ?_
    rw [decide_eq_false (not_lt.mpr (by norm_num at hr; linarith))]

theorem normalizeAngle_ofRat_iff {v : ℚ} (hv : 0 ≤ v) :
    (∃ n b, normalizeAngle n (single.ofRat v) = some b ∧ InTurn b) ↔ v ≤ 2 ^ 33 + 512 := by
  constructor
  · rintro ⟨n, b, hs, _⟩
    by_contra hgt
    rw [normalizeAngle_of_large (large_of_lt (not_le.mp hgt))] at hs
    cases hs
  · intro hle
    exact normalizeAngle_of_small (small_of_le hv hle)

theorem parseRotation_of_valid {s : Str} (h : isValidRotation s = true) :
    ∃ mirror v, parseRotation s = .ok (mirror, v) ∧ 0 ≤ v := by
  have hb : (s.dropPrefix? ['!']).getD s ∈ Grammar.posfloat :=
    (reads_posfloat.mem_iff _).mpr (by simpa [isValidRotation] using h)
  obtain ⟨v, hv⟩ := parseF32_of_posfloat hb
  unfold parseRotation
  split
  · exact ⟨false, 0, rfl, le_rfl⟩
  · rw [hv]
    exact ⟨_, v, rfl, parseF32_nonneg hv⟩

/-- **The loops at the start of `rotate` end, with an angle in `[0, 360)`, if and only if** the
decimal of the segment is at most `2 ^ 33 + 512`. -/
theorem normalizeAngle_ends_iff (s : Str) (hvalid : isValidRotation s = true) :
    ∃ mirror v, parseRotation s = .ok (mirror, v) ∧
      ((∃ n b, normalizeAngle n (single.ofRat v) = some b ∧ InTurn b) ↔ v ≤ 2 ^ 33 + 512) := by
  obtain ⟨mirror, v, hp, hv⟩ := parseRotation_of_valid hvalid
  exact ⟨mirror, v, hp, normalizeAngle_ofRat_iff hv⟩

theorem normalizeAngle_450 :
    parseRotation (txt "!450") = .ok (true, 450) ∧ ∃ n b, normalizeAngle n (single.ofRat 450) = some b ∧ InTurn b := by
  have hp : parseRotation (txt "!450") = .ok (true, 450) := by decide +kernel
  obtain ⟨mirror, v, hv, hi⟩ := normalizeAngle_ends_iff (txt "!450") (by decide)
  obtain ⟨_, rfl⟩ := Prod.mk.inj (Except.ok.inj (hp.symm.trans hv))
  exact ⟨hp, hi.mpr (by norm_num)⟩

theorem normalizeAngle_runs_on :
    isValidRotation (txt "8589935105") = true ∧ parseRotation (txt "8589935105") = .ok (false, 8589935105) ∧
      ∀ n, normalizeAngle n (single.ofRat 8589935105) = none := by
  refine ⟨by decide, by decide +kernel, fun n => ?_⟩
  exact normalizeAngle_of_large (large_of_lt (by norm_num)) n

end Sipi.Geometry
