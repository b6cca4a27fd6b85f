import Mathlib.Algebra.Order.Floor.Div
import Mathlib.GroupTheory.GroupAction.Ring
import Mathlib.Tactic.Ring
import Mathlib.Tactic.Linarith

/-!
# Halving until it fits

A number is halved, rounding up, as long as it exceeds a bound and a given number of halvings is not used up.
-/

namespace Sipi.Theory

/-- The loop, with `left` halvings to make. -/
def halvings (a n : ℕ) : ℕ → ℕ → ℕ
  | 0, k => k
  | left + 1, k => if n < a ⌈/⌉ 2 ^ k then halvings a n left (k + 1) else k

/-- The loop without a limit. -/
def level (a n : ℕ) : ℕ := halvings a n a 0

theorem le_mul_ceilDiv (a : ℕ) {b : ℕ} (hb : 0 < b) : a ≤ b * (a ⌈/⌉ b) := (ceilDiv_le_iff_le_mul hb).mp le_rfl

theorem ceilDiv_le_self (a : ℕ) {b : ℕ} (hb : 0 < b) : a ⌈/⌉ b ≤ a := by
  rw [ceilDiv_le_iff_le_mul hb]
  exact Nat.le_mul_of_pos_left a hb

theorem lt_ceilDiv_iff {a b k : ℕ} (hb : 0 < b) : k < a ⌈/⌉ b ↔ k * b < a := by
  rw [← not_le, ceilDiv_le_iff_le_mul hb, not_le, Nat.mul_comm]

theorem ceilDiv_two_pow_le_iff (a k c : ℕ) : a ⌈/⌉ 2 ^ k ≤ c ↔ a ≤ 2 ^ k * c := ceilDiv_le_iff_le_mul (by positivity)

theorem lt_ceilDiv_two_pow_iff (a k c : ℕ) : c < a ⌈/⌉ 2 ^ k ↔ 2 ^ k * c < a := by
  rw [← not_le, ceilDiv_two_pow_le_iff, not_le]

theorem ceilDiv_two_pow_antitone (a : ℕ) : Antitone fun k => a ⌈/⌉ 2 ^ k := by
  intro j k hjk
  show a ⌈/⌉ 2 ^ k ≤ a ⌈/⌉ 2 ^ j
  rw [ceilDiv_two_pow_le_iff]
  calc a ≤ 2 ^ j * (a ⌈/⌉ 2 ^ j) := le_mul_ceilDiv a (by positivity)
    _ ≤ 2 ^ k * (a ⌈/⌉ 2 ^ j) := Nat.mul_le_mul_right _ (Nat.pow_le_pow_right (by norm_num) hjk)

theorem ceilDiv_pos {a b : ℕ} (ha : 0 < a) (hb : 0 < b) : 0 < a ⌈/⌉ b := by
  rw [lt_ceilDiv_iff hb, Nat.zero_mul]
  exact ha

theorem ceilDiv_mono_left {a a' b : ℕ} (hb : 0 < b) (h : a ≤ a') : a ⌈/⌉ b ≤ a' ⌈/⌉ b := by
  rw [ceilDiv_le_iff_le_mul hb]
  exact h.trans (le_mul_ceilDiv a' hb)

@[simp] theorem ceilDiv_two_pow_zero (a : ℕ) : a ⌈/⌉ 2 ^ 0 = a := by
  rw [Nat.ceilDiv_eq_add_pred_div]
  simp

theorem halvings_spec (a n left k : ℕ) :
    k ≤ halvings a n left k ∧ halvings a n left k ≤ k + left ∧
      (∀ j, k ≤ j → j < halvings a n left k → n < a ⌈/⌉ 2 ^ j) ∧
      (halvings a n left k = k + left ∨ a ⌈/⌉ 2 ^ halvings a n left k ≤ n) := by
  induction left generalizing k with
  | zero => exact ⟨le_rfl, le_rfl, fun j hkj hj => absurd hj (by simp only [halvings]; omega), Or.inl rfl⟩
  | succ left ih =>
    rw [halvings]
    split
    · next hm =>
      obtain ⟨hle, hbn, hb, he⟩ := ih (k + 1)
      refine ⟨by omega, by omega, fun j hkj hj => ?_, he.imp_left fun h => by omega⟩
      rcases Nat.eq_or_lt_of_le hkj with rfl | hlt
      · exact hm
      · exact hb j hlt hj
    · next hd => exact ⟨le_rfl, by omega, fun j hkj hj => absurd hj (by omega), Or.inr (by omega)⟩

theorem level_le_iff {a n : ℕ} (hn : 0 < n) (j : ℕ) : level a n ≤ j ↔ a ⌈/⌉ 2 ^ j ≤ n := by
  obtain ⟨_, _, hb, he⟩ := halvings_spec a n a 0
  constructor
  · intro hj
    refine le_trans (ceilDiv_two_pow_antitone a hj) ?_
    rcases he with ha | he
    · have ho : a ⌈/⌉ 2 ^ a ≤ 1 := by
        rw [ceilDiv_two_pow_le_iff, mul_one]
        exact Nat.lt_two_pow_self.le
      show a ⌈/⌉ 2 ^ halvings a n a 0 ≤ n
      rw [ha, zero_add]
      omega
    · exact he
  · intro hf
    by_contra hlt
    exact absurd (hb j (Nat.zero_le j) (by rw [level] at hlt; omega)) (by omega)

theorem halvings_eq_min {a n : ℕ} (hn : 0 < n) (left : ℕ) : halvings a n left 0 = min left (level a n) := by
  obtain ⟨_, hbn, hb, he⟩ := halvings_spec a n left 0
  have hl : halvings a n left 0 ≤ level a n := by
    by_contra hlt
    have hf := (level_le_iff (a := a) hn (level a n)).mp le_rfl
    exact absurd (hb (level a n) (Nat.zero_le _) (by omega)) (by omega)
  rcases he with ha | he
  · omega
  · have := (level_le_iff hn _).mpr he
    omega

theorem ceilDiv_two_pow_le_share {a b n k : ℕ} (hn : 0 < n) (ha : 0 < a) (hit : a ⌈/⌉ 2 ^ k = n) :
    b ⌈/⌉ 2 ^ k ≤ (b * n) ⌈/⌉ a := by
  have hs : b * n ≤ a * ((b * n) ⌈/⌉ a) := le_mul_ceilDiv _ ha
  have hw : a ≤ 2 ^ k * n := (ceilDiv_two_pow_le_iff a k n).mp hit.le
  rw [ceilDiv_two_pow_le_iff]
  refine Nat.le_of_mul_le_mul_right ?_ hn
  calc b * n ≤ a * ((b * n) ⌈/⌉ a) := hs
    _ ≤ 2 ^ k * n * ((b * n) ⌈/⌉ a) := Nat.mul_le_mul_right _ hw
    _ = 2 ^ k * ((b * n) ⌈/⌉ a) * n := by ring

theorem share_le_ceilDiv_two_pow {a b n k : ℕ} (ha : 0 < a) (h : 2 ^ k * n ≤ a) : (b * n) ⌈/⌉ a ≤ b ⌈/⌉ 2 ^ k := by
  have hh : b ≤ 2 ^ k * (b ⌈/⌉ 2 ^ k) := le_mul_ceilDiv b (by positivity)
  rw [ceilDiv_le_iff_le_mul ha]
  calc b * n ≤ 2 ^ k * (b ⌈/⌉ 2 ^ k) * n := Nat.mul_le_mul_right n hh
    _ = 2 ^ k * n * (b ⌈/⌉ 2 ^ k) := by ring
    _ ≤ a * (b ⌈/⌉ 2 ^ k) := Nat.mul_le_mul_right _ h

end Sipi.Theory
