import Sipi.Formats.Scanlines
import Sipi.Theory.Blocks
import Mathlib.Algebra.Order.BigOperators.Group.Finset

/-!
# The levels of a pyramid

`doReduce<T>` of `formats/SipiIOTiff.cpp` makes a level of a pyramid: every sample is the mean of a block of
`2 ^ level` by `2 ^ level` samples of its channel, less at the edges.

## Honest scope

The sides of a level are exact quotients. Sizes of type `size_t` do not wrap.
-/

namespace Sipi.Formats

open Sipi.Theory Sipi.Geometry Sipi.Iiif

/-- What `doReduce` must not do. -/
inductive ReduceFault where
  | overrun
  | runsOn
  | overflow
  deriving DecidableEq

/-- A loop with a `uint32_t` counter up to `n`. -/
def forUint32 {σ : Type} (n : ℕ) (body : ℕ → σ → Except ReduceFault σ) : σ → Except ReduceFault σ :=
  forCounter (2 ^ 32) .runsOn n body

/-- `tmp` and `cnt`. -/
structure Total where
  tmp : ℕ
  cnt : ℕ

/-- The two inner loops. -/
def blockSum {w : Width} (inbuf : Buffer w.Sample) (reduce nx ny nc x y c : ℕ) : Except ReduceFault Total :=
  forRange (fun xx => forRange (fun yy t =>
    if u32 (reduce * x + xx) < nx ∧ u32 (reduce * y + yy) < ny then
      (inbuf.fetch .overrun (nc * (u32 (reduce * y + yy) * nx + u32 (reduce * x + xx)) + c)).map fun v =>
        ⟨u32 (t.tmp + v.toNat), u32 (t.cnt + 1)⟩
    else .ok t) reduce 0) reduce 0 ⟨0, 0⟩

/-- One sample. -/
def reduceSample {w : Width} (inbuf : Buffer w.Sample) (reduce nx ny nc nnx x y c : ℕ) (outbuf : Buffer w.Sample) :
    Except ReduceFault (Buffer w.Sample) :=
  blockSum inbuf reduce nx ny nc x y c >>= fun t =>
    outbuf.put .overrun (nc * (y * nnx + x) + c) (BitVec.ofNat _ (if 0 < t.cnt then t.tmp / t.cnt else 0))

/-- A level: its sides, and its samples. -/
structure Reduced (w : Width) where
  nnx : ℕ
  nny : ℕ
  outbuf : Buffer w.Sample

/-- `SipiSize(reduce)`. -/
def sipiSizeReduce (reduce : ℕ) : SizeParts where
  kind := .reduce
  upscaling := false
  percent := 0
  reduce := reduce
  nx := 0
  ny := 0

/-- `doReduce`. -/
def doReduce {w : Width} (inbuf : Buffer w.Sample) (reduce : ℕ) (d : Dims) (nc : ℕ) :
    Except ReduceFault (Reduced w) :=
  (getSizeReduce (some 0) (sipiSizeReduce reduce) d).mapError (fun _ => .overflow) >>= fun size =>
    let outbuf := Buffer.const (size.w * size.h * nc) 0
    -- `1 << reduce <= 1`: of 31 it is negative
    if reduce = 0 ∨ reduce = 31 then
      if inbuf.size < size.w * size.h * nc then .error .overrun
      else (outbuf.copy .overrun 0 inbuf 0 (size.w * size.h * nc)).map fun outbuf => ⟨size.w, size.h, outbuf⟩
    else
      (forUint32 size.h (fun y => forUint32 size.w fun x => forUint32 nc fun c =>
        reduceSample inbuf (2 ^ reduce) d.w d.h nc size.w x y c) outbuf).map fun outbuf => ⟨size.w, size.h, outbuf⟩

theorem Width.toNat_sample_le {w : Width} (v : w.Sample) : v.toNat ≤ 65535 := by
  have hlt := v.isLt
  cases w with
  | byte => exact (Nat.le_of_lt_succ hlt).trans (by decide)
  | word => exact Nat.le_of_lt_succ hlt

theorem sum_range_le {f : ℕ → ℕ} {m : ℕ} (h : ∀ i, f i ≤ m) (k : ℕ) : ∑ i ∈ Finset.range k, f i ≤ k * m := by
  simpa using Finset.sum_le_card_nsmul (Finset.range k) f m fun i _ => h i

theorem partial_sum_lt {r k l m : ℕ} (hr : r ≤ 32) (hk : k < r) (hl : l < r) (hm : m ≤ 65535) {f : ℕ → ℕ → ℕ}
    (hf : ∀ i j, f i j ≤ m) :
    ∑ i ∈ Finset.range k, ∑ j ∈ Finset.range r, f i j + ∑ j ∈ Finset.range l, f k j + f k l < 2 ^ 32 := by
  have hrw := sum_range_le (fun i => sum_range_le (hf i) r) k
  have hro := sum_range_le (hf k) l
  have hls := hf k l
  have hrm : r * m ≤ 32 * 65535 := Nat.mul_le_mul hr hm
  have hkr : k * (r * m) ≤ 31 * (32 * 65535) := Nat.mul_le_mul (by omega) hrm
  have hlm : l * m ≤ 31 * 65535 := Nat.mul_le_mul (by omega) hm
  omega

theorem accumulate_ends {r : ℕ} (hr : r ≤ 32) {body : ℕ → ℕ → Total → Except ReduceFault Total} {f g : ℕ → ℕ → ℕ}
    (hf : ∀ i j, f i j ≤ 65535) (hg : ∀ i j, g i j ≤ 1)
    (hb : ∀ i < r, ∀ j < r, ∀ t : Total, t.tmp + f i j < 2 ^ 32 → t.cnt + g i j < 2 ^ 32 →
      body i j t = .ok ⟨t.tmp + f i j, t.cnt + g i j⟩) :
    Ends (forRange (fun i => forRange (body i) r 0) r 0 ⟨0, 0⟩)
      (fun t => t.tmp = ∑ i ∈ Finset.range r, ∑ j ∈ Finset.range r, f i j ∧
        t.cnt = ∑ i ∈ Finset.range r, ∑ j ∈ Finset.range r, g i j)
      fun _ => False := by
  refine forCount_ends (fun k (t : Total) => t.tmp = ∑ i ∈ Finset.range k, ∑ j ∈ Finset.range r, f i j ∧
    t.cnt = ∑ i ∈ Finset.range k, ∑ j ∈ Finset.range r, g i j) (by simp) fun k t hk ht => ?_
  simp only [Finset.sum_range_succ _ k]
  refine forCount_ends (fun l (t : Total) =>
    t.tmp = ∑ i ∈ Finset.range k, ∑ j ∈ Finset.range r, f i j + ∑ j ∈ Finset.range l, f k j ∧
    t.cnt = ∑ i ∈ Finset.range k, ∑ j ∈ Finset.range r, g i j + ∑ j ∈ Finset.range l, g k j) (by simpa using ht)
    fun l t hl ht => ?_
  have htm := partial_sum_lt hr hk hl le_rfl hf
  have hc := partial_sum_lt hr hk hl (by decide) hg
  rw [hb k hk l hl t (by rw [ht.1]; exact htm) (by rw [ht.2]; exact hc), Finset.sum_range_succ,
    Finset.sum_range_succ]
  exact ⟨by rw [ht.1, Nat.add_assoc], by rw [ht.2, Nat.add_assoc]⟩

section
variable {w : Width} {inbuf : Buffer w.Sample} {r nx ny nc x y c : ℕ}

/-- The sum of the samples of a block. -/
def sumOfBlock (inbuf : Buffer w.Sample) (r nx ny nc x y c : ℕ) : ℕ :=
  ∑ p ∈ block r nx ny x y, (inbuf.get (index nx nc p.1 p.2 c)).toNat

theorem blockSum_ends (hs : inbuf.size = nx * ny * nc) (hc : c < nc) (hr : 0 < r) (hr32 : r ≤ 32)
    (hx : r * x + r ≤ 2 ^ 32) (hy : r * y + r ≤ 2 ^ 32) :
    Ends (blockSum inbuf r nx ny nc x y c)
      (fun t => t.tmp = sumOfBlock inbuf r nx ny nc x y c ∧ t.cnt = (block r nx ny x y).card) fun _ => False := by
  have hsm := sum_block (w := nx) (h := ny) (x := x) (y := y) hr fun a b => (inbuf.get (index nx nc a b c)).toNat
  have hcr := sum_block (w := nx) (h := ny) (x := x) (y := y) hr fun _ _ => 1
  rw [sumOfBlock, hsm, Finset.card_eq_sum_ones, hcr]
  refine accumulate_ends hr32 (fun i j => ?_) (fun i j => ?_) fun i hi j hj t ht hcn => ?_
  · split_ifs
    · exact Width.toNat_sample_le _
    · omega
  · split_ifs <;> omega
  · rw [u32_of_lt (by omega), u32_of_lt (by omega)]
    split_ifs at ht hcn ⊢ with hin
    · have hf : inbuf.fetch ReduceFault.overrun (nc * ((r * y + j) * nx + (r * x + i)) + c) =
          .ok (inbuf.get (index nx nc (r * x + i) (r * y + j) c)) :=
        Buffer.fetch_of_lt _ (hs ▸ index_lt hin.1 hin.2 hc)
      rw [hf, Except.map, u32_of_lt ht, u32_of_lt hcn]
    · rfl

theorem sumOfBlock_lt (hr : 0 < r) (hr32 : r ≤ 32) : sumOfBlock inbuf r nx ny nc x y c < 2 ^ 32 := by
  have hrw : r * 65535 ≤ 32 * 65535 := Nat.mul_le_mul_right _ hr32
  have ha : r * (r * 65535) ≤ 32 * (32 * 65535) := Nat.mul_le_mul hr32 hrw
  refine lt_of_le_of_lt ?_ (show 32 * (32 * 65535) < 2 ^ 32 by norm_num)
  rw [sumOfBlock, sum_block hr fun a b => (inbuf.get (index nx nc a b c)).toNat]
  refine (sum_range_le (fun i => sum_range_le (fun j => ?_) r) r).trans ha
  split_ifs
  · exact Width.toNat_sample_le _
  · omega

theorem mean_lt (hc : 0 < (block r nx ny x y).card) :
    sumOfBlock inbuf r nx ny nc x y c / (block r nx ny x y).card < 2 ^ (8 * w.bytes) := by
  have hp : 0 < 2 ^ (8 * w.bytes) := by positivity
  have hle : sumOfBlock inbuf r nx ny nc x y c ≤ (block r nx ny x y).card * (2 ^ (8 * w.bytes) - 1) := by
    refine Finset.sum_le_card_nsmul _ _ _ fun p _ => ?_
    have := (inbuf.get (index nx nc p.1 p.2 c)).isLt
    omega
  rw [Nat.div_lt_iff_lt_mul hc, Nat.mul_comm]
  exact hle.trans_lt (Nat.mul_lt_mul_of_pos_left (by omega) hc)

theorem block_end_le {n : ℕ} (hr : 0 < r) (hd : r ∣ 2 ^ 32) (hn : n ≤ 2 ^ 32) (hx : x < n ⌈/⌉ r) :
    r * x + r ≤ 2 ^ 32 := by
  obtain ⟨k, hk⟩ := hd
  have hxk : x < k := by
    refine Nat.lt_of_mul_lt_mul_left (a := r) ?_
    calc r * x = x * r := Nat.mul_comm r x
      _ < n := (lt_ceilDiv_iff hr).1 hx
      _ ≤ r * k := hn.trans hk.le
  rw [hk, ← Nat.mul_succ]
  exact Nat.mul_le_mul_left r hxk

/-! ### The level -/

/-- The samples before `q` are means of their blocks. -/
structure Means (inbuf : Buffer w.Sample) (r nx ny nc q : ℕ) (out : Buffer w.Sample) : Prop where
  size : out.size = (nx ⌈/⌉ r) * (ny ⌈/⌉ r) * nc
  get : ∀ x < nx ⌈/⌉ r, ∀ y < ny ⌈/⌉ r, ∀ c < nc, index (nx ⌈/⌉ r) nc x y c < q →
    (out.get (index (nx ⌈/⌉ r) nc x y c)).toNat = sumOfBlock inbuf r nx ny nc x y c / (block r nx ny x y).card

theorem reduceSample_ends (hsz : inbuf.size = nx * ny * nc) (hr : 0 < r) (hr32 : r ≤ 32) (hd : r ∣ 2 ^ 32)
    (hnx : nx ≤ 2 ^ 32) (hny : ny ≤ 2 ^ 32) (hx : x < nx ⌈/⌉ r) (hy : y < ny ⌈/⌉ r) (hc : c < nc)
    {out : Buffer w.Sample} (ho : Means inbuf r nx ny nc (index (nx ⌈/⌉ r) nc x y c) out) :
    Ends (reduceSample inbuf r nx ny nc (nx ⌈/⌉ r) x y c out)
      (Means inbuf r nx ny nc (index (nx ⌈/⌉ r) nc x y c + 1)) fun _ => False := by
  have hcr := card_block_pos hr hx hy
  refine (blockSum_ends hsz hc hr hr32 (block_end_le hr hd hnx hx) (block_end_le hr hd hny hy)).bind ?_
  rintro ⟨tmp, cnt⟩ ⟨rfl, rfl⟩
  refine Buffer.put_ends (fun _ => ⟨ho.size, fun x' hx' y' hy' c' hc' hlt => ?_⟩) fun hle => ?_
  · rw [if_pos hcr]
    rcases Nat.lt_succ_iff_lt_or_eq.1 hlt with hb | hs
    · have hk := ho.get x' hx' y' hy' c' hc' hb
      exact (congrArg BitVec.toNat (Buffer.get_set_of_ne out hb.ne _)).trans hk
    · obtain ⟨rfl, rfl, rfl⟩ := index_inj hx' hc' hx hc hs
      refine (congrArg BitVec.toNat (Buffer.get_set_self out _ _)).trans ?_
      rw [BitVec.toNat_ofNat, Nat.mod_eq_of_lt (mean_lt hcr)]
  · have hrm : index (nx ⌈/⌉ r) nc x y c < out.size := ho.size ▸ index_lt hx hy hc
    exact absurd hrm (not_lt.2 hle)

end

theorem getSizeReduce_eq (cap : Option ℕ) {reduce : ℕ} (hr : reduce ≤ 30) (d : Dims) :
    getSizeReduce cap (sipiSizeReduce reduce) d =
      .ok ⟨d.w ⌈/⌉ 2 ^ reduce, d.h ⌈/⌉ 2 ^ reduce, cap.elim reduce (min reduce), decide (reduce = 0)⟩ := by
  rcases Nat.eq_zero_or_pos reduce with rfl | hp
  · cases cap <;> simp [getSizeReduce, sipiSizeReduce]
  · simp [getSizeReduce, sipiSizeReduce, hp.ne', shifted, hr, ok_bind]

/-- What a level should be. -/
structure IsLevel {w : Width} (inbuf : Buffer w.Sample) (r : ℕ) (d : Dims) (nc : ℕ) (level : Reduced w) : Prop where
  nnx : level.nnx = d.w ⌈/⌉ r
  nny : level.nny = d.h ⌈/⌉ r
  size : level.outbuf.size = level.nnx * level.nny * nc
  nonempty : ∀ x < level.nnx, ∀ y < level.nny, 0 < (block r d.w d.h x y).card
  noWrap : ∀ x < level.nnx, ∀ y < level.nny, ∀ c < nc, sumOfBlock inbuf r d.w d.h nc x y c < 2 ^ 32
  mean : ∀ x < level.nnx, ∀ y < level.nny, ∀ c < nc, (level.outbuf.get (index level.nnx nc x y c)).toNat =
    sumOfBlock inbuf r d.w d.h nc x y c / (block r d.w d.h x y).card

theorem doReduce_zero {w : Width} {inbuf : Buffer w.Sample} {d : Dims} {nc : ℕ} (hs : inbuf.size = d.w * d.h * nc) :
    ∃ level, doReduce inbuf 0 d nc = .ok level ∧ IsLevel inbuf (2 ^ 0) d nc level := by
  have hcp : (Buffer.const (d.w * d.h * nc) 0).copy ReduceFault.overrun 0 inbuf 0 (d.w * d.h * nc) = .ok _ :=
    Buffer.copy_of_le _ (by simp) _ _
  have hsz := getSizeReduce_eq (some 0) (Nat.zero_le 30) d
  rw [ceilDiv_two_pow_zero, ceilDiv_two_pow_zero] at hsz
  refine ⟨_, by rw [doReduce, mapError_eq_ok.mpr hsz, ok_bind, if_pos (.inl rfl), if_neg (by simp [hs]), hcp]; rfl,
    (ceilDiv_two_pow_zero _).symm, (ceilDiv_two_pow_zero _).symm, rfl, fun x hx y hy => ?_, fun x _ y _ c _ => ?_,
    fun x hx y hy c hc => ?_⟩
  · rw [pow_zero, block_one hx hy]
    exact Nat.one_pos
  · exact sumOfBlock_lt (by norm_num) (by norm_num)
  · have hp := index_lt hx hy hc
    rw [pow_zero, sumOfBlock, block_one hx hy, Finset.sum_singleton, Finset.card_singleton, Nat.div_one]
    exact congrArg BitVec.toNat (by simpa using Buffer.get_blit_of_lt _ 0 inbuf 0 hp)

theorem doReduce_succ {w : Width} {inbuf : Buffer w.Sample} {reduce : ℕ} (hp : 0 < reduce) (hrd : reduce ≤ 5)
    {d : Dims} {nc : ℕ} (hsz : inbuf.size = d.w * d.h * nc) (hw : d.w ≤ 2 ^ 32) (hh : d.h ≤ 2 ^ 32)
    (hnc : nc < 2 ^ 32) :
    ∃ level, doReduce inbuf reduce d nc = .ok level ∧ IsLevel inbuf (2 ^ reduce) d nc level := by
  have hr : 0 < 2 ^ reduce := by positivity
  have hr32 : 2 ^ reduce ≤ 32 := Nat.pow_le_pow_right (by norm_num) hrd
  have ht : 2 ≤ 2 ^ reduce := Nat.le_self_pow hp.ne' 2
  have hd : 2 ^ reduce ∣ 2 ^ 32 := Nat.pow_dvd_pow 2 (by omega)
  have hs : ∀ n ≤ 2 ^ 32, n ⌈/⌉ 2 ^ reduce < 2 ^ 32 := by
    intro n hn
    refine lt_of_le_of_lt ((ceilDiv_le_iff_le_mul hr).2 ?_) (show 2 ^ 31 < 2 ^ 32 by norm_num)
    exact hn.trans (Nat.mul_le_mul_right (2 ^ 31) ht)
  have hl : Ends (forSamples (d.w ⌈/⌉ 2 ^ reduce) (d.h ⌈/⌉ 2 ^ reduce) nc
      (reduceSample inbuf (2 ^ reduce) d.w d.h nc (d.w ⌈/⌉ 2 ^ reduce))
      (.const ((d.w ⌈/⌉ 2 ^ reduce) * (d.h ⌈/⌉ 2 ^ reduce) * nc) 0))
      (Means inbuf (2 ^ reduce) d.w d.h nc ((d.w ⌈/⌉ 2 ^ reduce) * (d.h ⌈/⌉ 2 ^ reduce) * nc)) fun _ => False :=
    forSamples_ends (Means inbuf (2 ^ reduce) d.w d.h nc) ⟨rfl, by simp⟩ fun x hx y hy c hc out ho =>
      reduceSample_ends hsz hr hr32 hd hw hh hx hy hc ho
  obtain ⟨out, ho, hm⟩ := hl.exists_ok
  refine ⟨⟨d.w ⌈/⌉ 2 ^ reduce, d.h ⌈/⌉ 2 ^ reduce, out⟩, ?_, rfl, rfl, hm.size,
    fun x hx y hy => card_block_pos hr hx hy, fun x _ y _ c _ => sumOfBlock_lt hr hr32,
    fun x hx y hy c hc => hm.get x hx y hy c hc (index_lt hx hy hc)⟩
  rw [doReduce, mapError_eq_ok.mpr (getSizeReduce_eq (some 0) (by omega) d), ok_bind, if_neg (by omega)]
  simp only [forUint32, forCounter_of_lt (hs _ hw), forCounter_of_lt (hs _ hh), forCounter_of_lt hnc]
  rw [← forSamples, ho]
  rfl

/-- **The levels of a pyramid are made of the means of blocks**, for samples of either depth and every level from 0
to 5. -/
theorem doReduce_means {w : Width} (inbuf : Buffer w.Sample) (reduce : ℕ) (hreduce : reduce ≤ 5) (d : Dims) (nc : ℕ)
    (hsize : inbuf.size = d.w * d.h * nc) (hlimits : reduce = 0 ∨ (d.w ≤ 2 ^ 32 ∧ d.h ≤ 2 ^ 32 ∧ nc < 2 ^ 32)) :
    ∃ level, doReduce inbuf reduce d nc = .ok level ∧ IsLevel inbuf (2 ^ reduce) d nc level := by
  rcases Nat.eq_zero_or_pos reduce with rfl | hp
  · exact doReduce_zero hsize
  · obtain ⟨hw, hh, hnc⟩ := hlimits.resolve_left hp.ne'
    exact doReduce_succ hp hreduce hsize hw hh hnc

/-- An image of three columns and two rows. -/
def sixBytes : Buffer Width.byte.Sample := ⟨6, fun p => BitVec.ofNat _ (10 * p)⟩

theorem doReduce_six : ∃ level, doReduce sixBytes 1 ⟨3, 2, by decide, by decide⟩ 1 = .ok level ∧
    IsLevel sixBytes (2 ^ 1) ⟨3, 2, by decide, by decide⟩ 1 level :=
  doReduce_means sixBytes 1 (by decide) ⟨3, 2, by decide, by decide⟩ 1 rfl
    (.inr ⟨by norm_num, by norm_num, by norm_num⟩)

theorem doReduce_runs_on {w : Width} (inbuf : Buffer w.Sample) {reduce : ℕ} (hp : 0 < reduce) (hl : reduce ≤ 30) {d : Dims}
    (nc : ℕ) (hw : 2 ^ 32 ≤ d.w ⌈/⌉ 2 ^ reduce) : doReduce inbuf reduce d nc = .error .runsOn := by
  have hr : 0 < d.h ⌈/⌉ 2 ^ reduce := ceilDiv_pos d.h_pos (by positivity)
  rw [doReduce, mapError_eq_ok.mpr (getSizeReduce_eq (some 0) hl d), ok_bind, if_neg (by omega)]
  rcases Nat.lt_or_ge (d.h ⌈/⌉ 2 ^ reduce) (2 ^ 32) with hlt | hge
  · rw [forUint32, forCounter_of_lt hlt, forRange_error hr (forCounter_of_ge hw _ _ _)]
    rfl
  · rw [forUint32, forCounter_of_ge hge]
    rfl

theorem wide_pos : 0 < 2 ^ 33 := by norm_num

theorem wide_level_runs_on :
    doReduce (.const (2 ^ 33 * 1 * 1) (0 : Width.byte.Sample)) 1 ⟨2 ^ 33, 1, wide_pos, Nat.one_pos⟩ 1 =
      .error .runsOn := by
  refine doReduce_runs_on _ Nat.one_pos (by norm_num) 1 ?_
  rw [Nat.ceilDiv_eq_add_pred_div]
  norm_num

end Sipi.Formats
