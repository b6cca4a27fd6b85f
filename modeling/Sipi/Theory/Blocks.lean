import Sipi.Theory.Halving
import Mathlib.Algebra.BigOperators.Group.Finset.Sigma

/-!
# Blocks of an image, clipped at its edges

The numbers below `n` fall into segments of `r`, the last of which may be shorter, and the pixels of an image into
blocks, which are products of two segments.
-/

namespace Sipi.Theory

/-- The numbers below `n` in segment `x` of `r`. -/
def segment (r n x : ℕ) : Finset ℕ := (Finset.range n).filter fun a => a / r = x

/-- The pixels of block `(x, y)` of side `r`. -/
def block (r w h x y : ℕ) : Finset (ℕ × ℕ) := segment r w x ×ˢ segment r h y

variable {r n w h x y : ℕ}

theorem mem_segment_iff (hr : 0 < r) {a : ℕ} : a ∈ segment r n x ↔ a < n ∧ r * x ≤ a ∧ a < r * x + r := by
  rw [segment, Finset.mem_filter, Finset.mem_range, Nat.div_eq_iff hr, Nat.mul_comm x r]
  refine and_congr_right fun _ => and_congr_right fun _ => ?_
  rw [Nat.lt_iff_le_pred (by omega)]

theorem sum_segment (hr : 0 < r) (f : ℕ → ℕ) :
    ∑ a ∈ segment r n x, f a = ∑ i ∈ Finset.range r, if r * x + i < n then f (r * x + i) else 0 := by
  rw [← Finset.sum_filter]
  refine Finset.sum_nbij' (fun a => a - r * x) (fun i => r * x + i) (fun a ha => ?_) (fun i hi => ?_)
    (fun a ha => ?_) (fun i _ => by omega) fun a ha => ?_
  · rw [mem_segment_iff hr] at ha
    rw [Finset.mem_filter, Finset.mem_range]
    omega
  · rw [Finset.mem_filter, Finset.mem_range] at hi
    rw [mem_segment_iff hr]
    omega
  · rw [mem_segment_iff hr] at ha
    omega
  · rw [mem_segment_iff hr] at ha
    congr 1
    omega

theorem segment_nonempty (hr : 0 < r) (hx : x < n ⌈/⌉ r) : (segment r n x).Nonempty := by
  have hlt : r * x < n := by
    rw [Nat.mul_comm]
    exact (lt_ceilDiv_iff hr).1 hx
  exact ⟨r * x, (mem_segment_iff hr).2 ⟨hlt, le_rfl, by omega⟩⟩

theorem sum_block (hr : 0 < r) (f : ℕ → ℕ → ℕ) :
    ∑ p ∈ block r w h x y, f p.1 p.2 =
      ∑ i ∈ Finset.range r, ∑ j ∈ Finset.range r,
        if r * x + i < w ∧ r * y + j < h then f (r * x + i) (r * y + j) else 0 := by
  rw [block, Finset.sum_product, sum_segment hr]
  refine Finset.sum_congr rfl fun i _ => ?_
  rw [sum_segment hr]
  by_cases hi : r * x + i < w <;> simp [hi]

theorem block_one (hx : x < w) (hy : y < h) : block 1 w h x y = {(x, y)} := by
  ext ⟨a, b⟩
  rw [block, Finset.mem_product, mem_segment_iff Nat.one_pos, mem_segment_iff Nat.one_pos, Finset.mem_singleton,
    Prod.mk.injEq]
  dsimp only
  omega

theorem card_block_pos (hr : 0 < r) (hx : x < w ⌈/⌉ r) (hy : y < h ⌈/⌉ r) : 0 < (block r w h x y).card :=
  Finset.card_pos.2 ((segment_nonempty hr hx).product (segment_nonempty hr hy))

end Sipi.Theory
