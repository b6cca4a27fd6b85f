import Mathlib.Data.Int.Log
import Mathlib.Data.Rat.Floor
import Mathlib.Tactic.Positivity

/-!
# Rounding to a binary format

A binary floating-point format has numbers `m * 2 ^ e` with a bounded integer `m` and an exponent that is not too
small.
-/

namespace Sipi.Theory

/-- The nearest integer; of two, the even one. -/
def halfEven (q : ℚ) : ℤ :=
  if q - ⌊q⌋ < 1 / 2 then ⌊q⌋
  else if 1 / 2 < q - ⌊q⌋ then ⌊q⌋ + 1
  else if ⌊q⌋ % 2 = 0 then ⌊q⌋ else ⌊q⌋ + 1

theorem abs_halfEven_sub_le (q : ℚ) : |(halfEven q : ℚ) - q| ≤ 1 / 2 := by
  have hl := Int.floor_le q
  have hh := Int.lt_floor_add_one q
  rw [abs_le]
  unfold halfEven
  split_ifs <;> push_cast <;> constructor <;> linarith

theorem abs_halfEven_sub_le_int (q : ℚ) (n : ℤ) : |(halfEven q : ℚ) - q| ≤ |(n : ℚ) - q| := by
  by_contra hlt
  push Not at hlt
  have hh := abs_halfEven_sub_le q
  -- two integers less than one apart are the same
  have hn : |((halfEven q - n : ℤ) : ℚ)| < 1 := by
    have ht := abs_sub_le (halfEven q : ℚ) q n
    rw [abs_sub_comm q] at ht
    push_cast
    linarith
  have hz : halfEven q - n = 0 := by
    have hi : |halfEven q - n| < 1 := by exact_mod_cast hn
    exact Int.abs_lt_one_iff.mp hi
  rw [sub_eq_zero.mp hz] at hlt
  exact lt_irrefl _ hlt

/-! ### Formats -/

/-- A binary format. -/
structure Format where
  precision : ℕ
  pos : 0 < precision
  minExp : ℤ
  limit : ℕ

namespace Format

variable (F : Format)

/-- A number of the format, of any size. -/
def Mem (x : ℚ) : Prop := ∃ m e : ℤ, |m| < 2 ^ F.precision ∧ F.minExp ≤ e ∧ x = m * 2 ^ e

/-- The exponent of the last place. -/
def lastPlace (x : ℚ) : ℤ := max (Int.log 2 |x| - (F.precision - 1)) F.minExp

/-- The nearest number, halves to even. -/
def round (x : ℚ) : ℚ := halfEven (x / 2 ^ F.lastPlace x) * 2 ^ F.lastPlace x

variable {F} {x y : ℚ}

theorem two_zpow_pos (e : ℤ) : (0 : ℚ) < 2 ^ e := zpow_pos (by norm_num) e

theorem exists_two_zpow_eq {e e' : ℤ} (h : e ≤ e') : ∃ k : ℕ, e' = e + k ∧ (2 : ℚ) ^ e' = 2 ^ k * 2 ^ e := by
  obtain ⟨k, hk⟩ := Int.eq_ofNat_of_zero_le (sub_nonneg.mpr h)
  have he : e' = e + k := by omega
  refine ⟨k, he, ?_⟩
  rw [he, zpow_add₀ (by norm_num), zpow_natCast, mul_comm]

theorem mem_zero (F : Format) : F.Mem 0 :=
  ⟨0, F.minExp, by simp, le_rfl, by simp⟩

theorem mem_of_abs_le {m e : ℤ} (hm : |m| ≤ 2 ^ F.precision) (he : F.minExp ≤ e) : F.Mem (m * 2 ^ e) := by
  rcases hm.lt_or_eq with hlt | heq
  · exact ⟨m, e, hlt, he, rfl⟩
  · obtain ⟨p, hp⟩ : ∃ p, F.precision = p + 1 := ⟨F.precision - 1, (Nat.sub_add_cancel F.pos).symm⟩
    have hpw : (2 : ℤ) ^ F.precision = 2 * 2 ^ p := by rw [hp, pow_succ, mul_comm]
    have hps : (0 : ℤ) < 2 ^ p := by positivity
    have hd : ∀ k : ℤ, m = 2 * k → |k| < 2 ^ F.precision → F.Mem (m * 2 ^ e) := by
      intro k hk hlt
      refine ⟨k, e + 1, hlt, by omega, ?_⟩
      rw [hk, zpow_add_one₀ (by norm_num)]
      push_cast
      ring
    rcases abs_eq (by positivity) |>.mp heq with hpo | hn
    · exact hd (2 ^ p) (by rw [hpo, hpw]) (by rw [abs_of_pos hps, hpw]; omega)
    · exact hd (-2 ^ p) (by rw [hn, hpw]; ring) (by rw [abs_neg, abs_of_pos hps, hpw]; omega)

theorem abs_div_lastPlace_lt (F : Format) (x : ℚ) : |x / 2 ^ F.lastPlace x| < 2 ^ F.precision := by
  rw [abs_div, abs_of_pos (two_zpow_pos _), div_lt_iff₀ (two_zpow_pos _), ← zpow_natCast, ← zpow_add₀ (by norm_num)]
  have hl : |x| < (2 : ℚ) ^ (Int.log 2 |x| + 1) := Int.lt_zpow_succ_log_self (by norm_num) |x|
  refine hl.trans_le (zpow_le_zpow_right₀ (by norm_num) ?_)
  have hle : Int.log 2 |x| - (F.precision - 1) ≤ F.lastPlace x := le_max_left _ _
  omega

theorem round_mem (F : Format) (x : ℚ) : F.Mem (F.round x) := by
  refine mem_of_abs_le ?_ (le_max_right _ _)
  have hlt := abs_div_lastPlace_lt F x
  have hn := abs_halfEven_sub_le (x / 2 ^ F.lastPlace x)
  have ht := abs_add_le ((halfEven (x / 2 ^ F.lastPlace x) : ℚ) - x / 2 ^ F.lastPlace x) (x / 2 ^ F.lastPlace x)
  rw [sub_add_cancel] at ht
  have hc : ((|halfEven (x / 2 ^ F.lastPlace x)| : ℤ) : ℚ) < ((2 ^ F.precision + 1 : ℤ) : ℚ) := by
    push_cast
    linarith
  have hi : |halfEven (x / 2 ^ F.lastPlace x)| < 2 ^ F.precision + 1 := by exact_mod_cast hc
  omega

theorem round_nearest_grid (F : Format) (x : ℚ) (n : ℤ) :
    |F.round x - x| ≤ |n * 2 ^ F.lastPlace x - x| := by
  have hs : ∀ k : ℤ, |(k : ℚ) * 2 ^ F.lastPlace x - x| =
      |(k : ℚ) - x / 2 ^ F.lastPlace x| * 2 ^ F.lastPlace x := by
    intro k
    have hp := two_zpow_pos (F.lastPlace x)
    rw [← abs_of_pos hp, ← abs_mul, abs_of_pos hp, sub_mul, div_mul_cancel₀ _ hp.ne']
  rw [round, hs, hs]
  exact mul_le_mul_of_nonneg_right (abs_halfEven_sub_le_int _ n) (two_zpow_pos _).le

theorem round_zero (F : Format) : F.round 0 = 0 := by
  rw [round, zero_div]
  simp [halfEven]

theorem exists_sign_abs_sub_le {c : ℚ} (hy : |y| < c) (hx : c ≤ |x|) : ∃ s : ℤ, |s * c - x| ≤ |y - x| := by
  obtain ⟨hl, hh⟩ := abs_lt.mp hy
  rcases le_total 0 x with hp | hn
  · rw [abs_of_nonneg hp] at hx
    refine ⟨1, ?_⟩
    rw [Int.cast_one, one_mul, abs_sub_comm, abs_of_nonneg (by linarith), abs_sub_comm, abs_of_nonneg (by linarith)]
    linarith
  · rw [abs_of_nonpos hn] at hx
    refine ⟨-1, ?_⟩
    rw [Int.cast_neg, Int.cast_one, neg_one_mul, abs_of_nonneg (by linarith), abs_of_nonneg (by linarith)]
    linarith

theorem round_nearest (F : Format) (x : ℚ) (hy : F.Mem y) : |F.round x - x| ≤ |y - x| := by
  rcases eq_or_ne x 0 with rfl | hx
  · rw [round_zero, sub_self, abs_zero]
    exact abs_nonneg _
  obtain ⟨m, e, hm, he, rfl⟩ := hy
  rcases le_or_gt (F.lastPlace x) e with hle | hlt
  · -- a multiple of the last place
    obtain ⟨k, -, hk⟩ := exists_two_zpow_eq hle
    have hg := round_nearest_grid F x (m * 2 ^ k)
    rwa [Int.cast_mul, Int.cast_pow, Int.cast_ofNat, mul_assoc, ← hk] at hg
  · -- a finer number is smaller than `x`, and a power of two lies between the two
    obtain ⟨p, hp⟩ : ∃ p, F.precision = p + 1 := ⟨F.precision - 1, (Nat.sub_add_cancel F.pos).symm⟩
    have hpl : F.lastPlace x + p = Int.log 2 |x| := by
      unfold lastPlace at hlt ⊢
      omega
    have hpw : (2 : ℚ) ^ Int.log 2 |x| = 2 ^ p * 2 ^ F.lastPlace x := by
      rw [← hpl, zpow_add₀ (by norm_num), zpow_natCast, mul_comm]
    have hl : (2 : ℚ) ^ Int.log 2 |x| ≤ |x| := Int.zpow_log_le_self (by norm_num) (abs_pos.mpr hx)
    have hsm : |(m : ℚ) * 2 ^ e| < 2 ^ Int.log 2 |x| := by
      have hc : |(m : ℚ)| < 2 ^ F.precision := by exact_mod_cast hm
      calc |(m : ℚ) * 2 ^ e| = |(m : ℚ)| * 2 ^ e := by rw [abs_mul, abs_of_pos (two_zpow_pos e)]
        _ < 2 ^ F.precision * 2 ^ e := mul_lt_mul_of_pos_right hc (two_zpow_pos e)
        _ = 2 ^ ((F.precision : ℤ) + e) := by rw [zpow_add₀ (by norm_num), zpow_natCast]
        _ ≤ 2 ^ Int.log 2 |x| := zpow_le_zpow_right₀ (by norm_num) (by omega)
    obtain ⟨s, hs⟩ := exists_sign_abs_sub_le hsm hl
    refine (round_nearest_grid F x (s * 2 ^ p)).trans ?_
    rwa [Int.cast_mul, Int.cast_pow, Int.cast_ofNat, mul_assoc, ← hpw]

theorem round_of_mem (hx : F.Mem x) : F.round x = x := by
  have hn := F.round_nearest x hx
  rw [sub_self, abs_zero] at hn
  exact sub_eq_zero.mp (abs_eq_zero.mp (le_antisymm hn (abs_nonneg _)))

theorem round_mono (F : Format) (h : x ≤ y) : F.round x ≤ F.round y := by
  rcases h.eq_or_lt with rfl | hlt
  · exact le_rfl
  by_contra hgt
  -- `x` is at least as near to the larger result, and `y` to the smaller
  have hx := F.round_nearest x (F.round_mem y)
  have hy := F.round_nearest y (F.round_mem x)
  rcases abs_cases (F.round x - x) with ⟨h₁, _⟩ | ⟨h₁, _⟩ <;>
    rcases abs_cases (F.round y - x) with ⟨h₂, _⟩ | ⟨h₂, _⟩ <;>
      rcases abs_cases (F.round y - y) with ⟨h₃, _⟩ | ⟨h₃, _⟩ <;>
        rcases abs_cases (F.round x - y) with ⟨h₄, _⟩ | ⟨h₄, _⟩ <;>
          linarith

theorem le_round (hy : F.Mem y) (h : y ≤ x) : y ≤ F.round x := by
  have hm := F.round_mono h
  rwa [round_of_mem hy] at hm

theorem round_le (hy : F.Mem y) (h : x ≤ y) : F.round x ≤ y := by
  have hm := F.round_mono h
  rwa [round_of_mem hy] at hm

theorem exists_eq_mul_of_lt (hx : F.Mem x) {k : ℤ} (h : 2 ^ (F.precision + k) < 2 * x) : ∃ n : ℤ, x = n * 2 ^ k := by
  obtain ⟨m, e, hm, _, rfl⟩ := hx
  have hc : (m : ℚ) < 2 ^ F.precision := by exact_mod_cast (abs_lt.mp hm).2
  have hek : k ≤ e := by
    by_contra hlt
    have hle : (2 : ℚ) ^ (e + 1) ≤ 2 ^ k := zpow_le_zpow_right₀ (by norm_num) (by omega)
    rw [zpow_add_one₀ (by norm_num)] at hle
    rw [zpow_add₀ (by norm_num), zpow_natCast] at h
    have hp : (m : ℚ) * 2 ^ e ≤ 2 ^ F.precision * 2 ^ e := mul_le_mul_of_nonneg_right hc.le (two_zpow_pos e).le
    have hs : (2 : ℚ) ^ F.precision * (2 ^ e * 2) ≤ 2 ^ F.precision * 2 ^ k :=
      mul_le_mul_of_nonneg_left hle (by positivity)
    linarith
  obtain ⟨j, -, hj⟩ := exists_two_zpow_eq hek
  exact ⟨m * 2 ^ j, by rw [hj, Int.cast_mul, Int.cast_pow, Int.cast_ofNat, mul_assoc]⟩

theorem gap (hx : F.Mem x) (hy : F.Mem y) {k : ℤ} (h : 2 ^ (F.precision + k) < 2 * x) (hlt : y < x) :
    y + 2 ^ k ≤ x := by
  obtain ⟨p, hp⟩ : ∃ p, F.precision = p + 1 := ⟨F.precision - 1, (Nat.sub_add_cancel F.pos).symm⟩
  have hpw : (2 : ℚ) ^ (F.precision + k) = 2 * (2 ^ p * 2 ^ k) := by
    rw [zpow_add₀ (by norm_num), zpow_natCast, hp, pow_succ]
    ring
  have hs : ∀ a b : ℤ, (a : ℚ) * 2 ^ k < b * 2 ^ k → (a : ℚ) * 2 ^ k + 2 ^ k ≤ b * 2 ^ k := by
    intro a b hab
    have hi : a + 1 ≤ b := by exact_mod_cast (mul_lt_mul_iff_left₀ (two_zpow_pos k)).mp hab
    have hc : (a : ℚ) + 1 ≤ b := by exact_mod_cast hi
    calc (a : ℚ) * 2 ^ k + 2 ^ k = (a + 1) * 2 ^ k := by ring
      _ ≤ b * 2 ^ k := mul_le_mul_of_nonneg_right hc (two_zpow_pos k).le
  obtain ⟨n, rfl⟩ := exists_eq_mul_of_lt hx h
  rcases lt_or_ge (2 ^ (F.precision + k)) (2 * y) with hl | hsm
  · obtain ⟨n', rfl⟩ := exists_eq_mul_of_lt hy hl
    exact hs n' n hlt
  · -- `2 ^ p * 2 ^ k` lies between the two
    have hb := hs (2 ^ p) n (by push_cast; linarith)
    push_cast at hb
    linarith

theorem round_eq_of_gap (hx : F.Mem x) {k : ℤ} (h : 2 ^ (F.precision + k) < 2 * x) (hle : y ≤ x)
    (hn : 2 * (x - y) < 2 ^ k) : F.round y = x := by
  rcases (round_le hx hle).lt_or_eq with hlt | heq
  · have hf := gap hx (F.round_mem y) h hlt
    have hb := F.round_nearest y hx
    rw [abs_of_nonneg (sub_nonneg.mpr hle), abs_of_nonpos (by linarith)] at hb
    linarith
  · exact heq

/-- A number, an infinity, or no number. -/
inductive Value (F : Format) where
  | finite (q : ℚ) (h : F.Mem q ∧ |q| < 2 ^ F.limit)
  | inf (negative : Bool)
  | nan

/-- The value of an exact result. -/
def ofRat (F : Format) (x : ℚ) : F.Value :=
  if h : |F.round x| < 2 ^ F.limit then .finite (F.round x) ⟨F.round_mem x, h⟩ else .inf (decide (F.round x < 0))

theorem ofRat_of_round (hx : F.Mem x ∧ |x| < 2 ^ F.limit) (h : F.round y = x) : F.ofRat y = .finite x hx := by
  subst h
  exact dif_pos hx.2

theorem ofRat_of_mem (hx : F.Mem x ∧ |x| < 2 ^ F.limit) : F.ofRat x = .finite x hx :=
  ofRat_of_round hx (round_of_mem hx.1)

namespace Value

/-- The sum with a number. -/
def add (v : F.Value) (c : ℚ) : F.Value :=
  match v with
  | .finite q _ => F.ofRat (q + c)
  | .inf negative => .inf negative
  | .nan => .nan

/-- The value in another format. -/
def convert (G : Format) : F.Value → G.Value
  | .finite q _ => G.ofRat q
  | .inf negative => .inf negative
  | .nan => .nan

/-- The value is less than a number. -/
def lt (v : F.Value) (c : ℚ) : Bool :=
  match v with
  | .finite q _ => decide (q < c)
  | .inf negative => negative
  | .nan => false

/-- The value is at least a number. -/
def ge (v : F.Value) (c : ℚ) : Bool :=
  match v with
  | .finite q _ => decide (c ≤ q)
  | .inf negative => !negative
  | .nan => false

end Value

end Format

end Sipi.Theory
