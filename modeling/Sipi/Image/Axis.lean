import Sipi.Theory.FixedPoint
import Mathlib.Algebra.Order.Floor.Semifield

/-!
# The weights of the resampler

`build_axis_weights` in `src/SipiImage.cpp` says for each output sample of an axis which source samples it is made
of, and with what weights.
-/

namespace Sipi.Image

open Sipi.Theory

/-- The bits behind the point. -/
def kResamplePrecisionBits : ℕ := 14

/-- One, in fixed point. -/
def kResampleOne : ℕ := 2 ^ kResamplePrecisionBits

/-- The loop over the samples of an interval. -/
def areaTaps (ratio start stop : ℚ) : ℕ → ℕ → List (ℕ × ℚ)
  | 0, _ => []
  | n + 1, s =>
    if (s : ℚ) < stop then
      let cover := min stop (s + 1) - max start s
      if cover ≤ 0 then areaTaps ratio start stop n (s + 1)
      else (s, cover / ratio) :: areaTaps ratio start stop n (s + 1)
    else []

/-- `src - 1`, as a `size_t`. -/
def lastSample (src : ℕ) : ℕ := if src = 0 then 2 ^ 64 - 1 else src - 1

/-- Where an output lies between the samples. -/
def linearPos (src dst i : ℕ) : ℚ := if 1 < dst then i * lastSample src / (dst - 1 : ℕ) else 0

/-- The two samples around it. -/
def linearTaps (src dst i : ℕ) : List (ℕ × ℚ) :=
  let pos := linearPos src dst i
  let s0 := ⌊pos⌋₊
  let frac := pos - s0
  let s1 := min ((s0 + 1) % 2 ^ 64) (lastSample src)
  if s1 = s0 then [(s0, 1 - frac)] else [(s0, 1 - frac), (s1, frac)]

/-- The samples of output `i`, with weights. -/
def realTaps (src dst i : ℕ) : List (ℕ × ℚ) :=
  if dst = src then [(i, 1)]
  else if dst < src then
    let ratio : ℚ := src / dst
    let start := i * ratio
    let stop := (i + 1) * ratio
    areaTaps ratio start stop (src - ⌊start⌋₊) ⌊start⌋₊
  else linearTaps src dst i

/-- `build_axis_weights`: the taps of output `i`. -/
def buildAxisWeights (src dst i : ℕ) : List (ℕ × ℤ) := quantise kResampleOne (realTaps src dst i)

/-! ### What an interval covers -/

/-- Whole samples of an interval, then a part. -/
def wholes (d x : ℕ) : List ℕ := .replicate (x / d) d ++ if x % d = 0 then [] else [x % d]

theorem wholes_zero (d : ℕ) : wholes d 0 = [] := by simp [wholes]

theorem wholes_pos {d x : ℕ} (hd : 0 < d) (hx : 0 < x) : wholes d x = min x d :: wholes d (x - d) := by
  rcases Nat.lt_or_ge x d with hlt | hge
  · have hr : x - d = 0 := by omega
    rw [hr, wholes_zero, min_eq_left hlt.le, wholes, Nat.div_eq_of_lt hlt, Nat.mod_eq_of_lt hlt,
      if_neg (by omega)]
    rfl
  · have hdv : x / d = (x - d) / d + 1 := Nat.div_eq_sub_div hd hge
    have hm : x % d = (x - d) % d := Nat.mod_eq_sub_mod hge
    rw [min_eq_right hge, wholes, wholes, hdv, hm, List.replicate_succ, List.cons_append]

theorem sum_wholes (d x : ℕ) : (wholes d x).sum = x := by
  rw [wholes, List.sum_append, List.sum_replicate, nsmul_eq_mul, Nat.cast_id]
  split_ifs with hm
  · have hd := Nat.div_add_mod' x d
    rw [List.sum_nil]
    omega
  · rw [List.sum_singleton, Nat.div_add_mod']

theorem le_of_mem_wholes {d x c : ℕ} (hd : 0 < d) (hc : c ∈ wholes d x) : c ≤ d := by
  rcases List.mem_append.mp hc with hw | hp
  · exact (List.eq_of_mem_replicate hw).le
  · split_ifs at hp with hm
    · cases hp
    · rw [List.mem_singleton.mp hp]
      exact (Nat.mod_lt x hd).le

/-- The part of the first sample of output `i`. -/
def headPart (src dst i : ℕ) : ℕ := (dst - i * src % dst) % dst

/-- How far the samples lie in the interval. -/
def covers (src dst i : ℕ) : List ℕ :=
  (if headPart src dst i = 0 then [] else [headPart src dst i]) ++ wholes dst (src - headPart src dst i)

section
variable {src dst : ℕ}

theorem areaTaps_step (hs : 0 < src) (hds : 0 < dst) {a b s : ℕ} (hab : a < b) (hb : s * dst < b)
    (ha : a < (s + 1) * dst) (n : ℕ) :
    areaTaps ((src : ℚ) / dst) ((a : ℚ) / dst) ((b : ℚ) / dst) (n + 1) s =
      (s, ((min b ((s + 1) * dst) - max a (s * dst) : ℕ) : ℚ) / src) ::
        areaTaps ((src : ℚ) / dst) ((a : ℚ) / dst) ((b : ℚ) / dst) n (s + 1) := by
  have hd : (0 : ℚ) < dst := Nat.cast_pos.mpr hds
  have hr : (0 : ℚ) < src := Nat.cast_pos.mpr hs
  have hn : (s + 1) * dst = s * dst + dst := Nat.succ_mul s dst
  have hi : (s : ℚ) < b / dst := by
    rw [lt_div_iff₀ hd]
    exact_mod_cast hb
  have hm : max ((a : ℚ) / dst) s = ((max a (s * dst) : ℕ) : ℚ) / dst := by
    rw [Nat.cast_max, ← max_div_div_right hd.le, Nat.cast_mul, mul_div_assoc, div_self hd.ne', mul_one]
  have hmn : min ((b : ℚ) / dst) (s + 1) = ((min b ((s + 1) * dst) : ℕ) : ℚ) / dst := by
    rw [Nat.cast_min, ← min_div_div_right hd.le, Nat.cast_mul, mul_div_assoc, div_self hd.ne', mul_one,
      Nat.cast_succ]
  have hlt : max a (s * dst) < min b ((s + 1) * dst) := by omega
  have hc : min ((b : ℚ) / dst) (s + 1) - max ((a : ℚ) / dst) s =
      ((min b ((s + 1) * dst) - max a (s * dst) : ℕ) : ℚ) / dst := by
    rw [hm, hmn, Nat.cast_sub hlt.le, sub_div]
  have hnt : ¬ ((min b ((s + 1) * dst) - max a (s * dst) : ℕ) : ℚ) / dst ≤ 0 := by
    rw [not_le]
    exact div_pos (Nat.cast_pos.mpr (Nat.sub_pos_of_lt hlt)) hd
  rw [areaTaps, if_pos hi, hc]
  dsimp only
  rw [if_neg hnt]
  congr 2
  field_simp

theorem areaTaps_end (hd : 0 < dst) (ratio start : ℚ) {b s : ℕ} (hb : b ≤ s * dst) (n : ℕ) :
    areaTaps ratio start ((b : ℚ) / dst) n s = [] := by
  cases n with
  | zero => rfl
  | succ n =>
    refine if_neg ?_
    rw [not_lt, div_le_iff₀ (Nat.cast_pos.mpr hd)]
    exact_mod_cast hb

theorem areaTaps_tail (hsr : 0 < src) (hd : 0 < dst) {a b n s : ℕ} (hst : a ≤ s * dst) (hs : b ≤ (s + n) * dst) :
    (areaTaps ((src : ℚ) / dst) ((a : ℚ) / dst) ((b : ℚ) / dst) n s).map Prod.snd =
      (wholes dst (b - s * dst)).map fun c : ℕ => (c : ℚ) / src := by
  induction n generalizing s with
  | zero =>
    rw [Nat.sub_eq_zero_of_le (by simpa using hs), wholes_zero]
    rfl
  | succ n ih =>
    have hn : (s + 1) * dst = s * dst + dst := Nat.succ_mul s dst
    rcases Nat.lt_or_ge (s * dst) b with hlt | hge
    · have hc : min b ((s + 1) * dst) - max a (s * dst) = min (b - s * dst) dst := by omega
      rw [areaTaps_step hsr hd (by omega) hlt (by omega), wholes_pos hd (Nat.sub_pos_of_lt hlt), List.map_cons,
        List.map_cons, ih (by omega) (by rw [Nat.add_right_comm]; exact hs), hc, hn, Nat.sub_sub]
    · rw [areaTaps_end hd _ _ hge, Nat.sub_eq_zero_of_le hge, wholes_zero]
      rfl

theorem headPart_lt (src : ℕ) (hd : 0 < dst) (i : ℕ) : headPart src dst i < dst := Nat.mod_lt _ hd

theorem headPart_spec (src : ℕ) (hd : 0 < dst) (i : ℕ) :
    i * src + headPart src dst i = (i * src / dst + if i * src % dst = 0 then 0 else 1) * dst := by
  have hdv := Nat.div_add_mod' (i * src) dst
  have hm := Nat.mod_lt (i * src) hd
  unfold headPart
  split_ifs with hz
  · rw [hz, Nat.sub_zero, Nat.mod_self, Nat.add_zero, Nat.add_zero]
    omega
  · rw [Nat.mod_eq_of_lt (by omega), Nat.succ_mul]
    omega

variable {i : ℕ}

theorem covers_realTaps (hlt : dst < src) (hi : i < dst) :
    (realTaps src dst i).map Prod.snd = (covers src dst i).map fun c : ℕ => (c : ℚ) / src := by
  have hd : 0 < dst := by omega
  have hsr : 0 < src := by omega
  have hst : (i : ℚ) * ((src : ℚ) / dst) = ((i * src : ℕ) : ℚ) / dst := by
    push_cast
    ring
  have hsp : ((i : ℚ) + 1) * ((src : ℚ) / dst) = (((i + 1) * src : ℕ) : ℚ) / dst := by
    push_cast
    ring
  have hfl : ⌊((i * src : ℕ) : ℚ) / dst⌋₊ = i * src / dst := Nat.floor_div_eq_div _ _
  have he : (i + 1) * src = i * src + src := Nat.succ_mul i src
  have hle : (i + 1) * src ≤ src * dst := by
    rw [Nat.mul_comm src]
    exact Nat.mul_le_mul_right src hi
  have hf : i * src / dst < src := Nat.div_lt_of_lt_mul (by rw [Nat.mul_comm dst]; omega)
  have hs := headPart_spec src hd i
  rw [realTaps, if_neg hlt.ne, if_pos hlt]
  dsimp only
  rw [hst, hsp, hfl]
  by_cases hz : i * src % dst = 0
  · -- the interval begins with a whole sample
    rw [if_pos hz, Nat.add_zero] at hs
    have hh : headPart src dst i = 0 := by rw [headPart, hz, Nat.sub_zero, Nat.mod_self]
    rw [areaTaps_tail hsr hd (by omega) (by rw [Nat.add_sub_cancel' hf.le]; exact hle), covers, if_pos hh,
      hh, List.nil_append]
    congr 2
    omega
  · -- it begins within a sample, and does not end in it
    rw [if_neg hz] at hs
    have hl : src - i * src / dst = (src - (i * src / dst + 1)) + 1 := by omega
    have hh : headPart src dst i ≠ 0 := by
      intro h0
      rw [h0, Nat.add_zero] at hs
      exact hz (Nat.mod_eq_zero_of_dvd ⟨_, hs.trans (Nat.mul_comm _ _)⟩)
    have hhd := headPart_lt src hd i
    have hdv := Nat.div_mul_le_self (i * src) dst
    have hc : min ((i + 1) * src) ((i * src / dst + 1) * dst) - max (i * src) (i * src / dst * dst) =
        headPart src dst i := by omega
    rw [hl, areaTaps_step hsr hd (by omega) (by omega) (by omega), List.map_cons,
      areaTaps_tail hsr hd (by omega) (by rw [Nat.add_sub_cancel' hf]; exact hle), hc, covers,
      if_neg hh, List.singleton_append, List.map_cons]
    congr 3
    omega

theorem sum_covers (hlt : dst < src) (hd : 0 < dst) (i : ℕ) : (covers src dst i).sum = src := by
  have hh := headPart_lt src hd i
  rw [covers, List.sum_append, sum_wholes]
  split_ifs with hz
  · rw [List.sum_nil]
    omega
  · rw [List.sum_singleton]
    omega

theorem le_of_mem_covers (hd : 0 < dst) {c : ℕ} (hc : c ∈ covers src dst i) : c ≤ dst := by
  rcases List.mem_append.mp hc with hf | hr
  · split_ifs at hf with hz
    · cases hf
    · rw [List.mem_singleton.mp hf]
      exact (headPart_lt src hd i).le
  · exact le_of_mem_wholes hd hr

theorem areaTaps_samples (ratio start stop : ℚ) (n s : ℕ) :
    ((areaTaps ratio start stop n s).map Prod.fst).Nodup ∧
      ∀ t ∈ areaTaps ratio start stop n s, s ≤ t.1 ∧ t.1 < s + n := by
  induction n generalizing s with
  | zero => exact ⟨List.nodup_nil, fun t ht => by cases ht⟩
  | succ n ih =>
    obtain ⟨hn, hm⟩ := ih (s + 1)
    have hm' : ∀ t ∈ areaTaps ratio start stop n (s + 1), s ≤ t.1 ∧ t.1 < s + (n + 1) := fun t ht => by
      have h := hm t ht
      omega
    rw [areaTaps]
    split_ifs with hlt
    · dsimp only
      split_ifs with hc
      · exact ⟨hn, hm'⟩
      · refine ⟨List.nodup_cons.mpr ⟨fun hin => ?_, hn⟩, List.forall_mem_cons.mpr ⟨⟨le_rfl, by omega⟩, hm'⟩⟩
        obtain ⟨t, ht, heq⟩ := List.mem_map.mp hin
        have h := hm t ht
        dsimp only at heq
        omega
    · exact ⟨List.nodup_nil, fun t ht => by cases ht⟩

theorem linearPos_nonneg (src dst i : ℕ) : 0 ≤ linearPos src dst i := by
  unfold linearPos
  split_ifs
  · positivity
  · exact le_rfl

theorem linearPos_le (hi : i < dst) : linearPos src dst i ≤ lastSample src := by
  unfold linearPos
  split_ifs with ho
  · have hd : (0 : ℚ) < (dst - 1 : ℕ) := Nat.cast_pos.mpr (by omega)
    rw [div_le_iff₀ hd, mul_comm]
    exact mul_le_mul_of_nonneg_left (Nat.cast_le.mpr (by omega)) (Nat.cast_nonneg _)
  · exact Nat.cast_nonneg _

theorem floor_linearPos_le (src : ℕ) (hi : i < dst) : ⌊linearPos src dst i⌋₊ ≤ lastSample src :=
  Nat.floor_le_of_le (linearPos_le hi)

theorem linearPos_eq_of_eq (hi : i < dst)
    (h : min ((⌊linearPos src dst i⌋₊ + 1) % 2 ^ 64) (lastSample src) = ⌊linearPos src dst i⌋₊) :
    linearPos src dst i = ⌊linearPos src dst i⌋₊ := by
  have hl : ⌊linearPos src dst i⌋₊ = lastSample src := by omega
  refine le_antisymm ?_ (Nat.floor_le (linearPos_nonneg src dst i))
  rw [hl]
  exact linearPos_le hi

theorem shares_linearTaps (hi : i < dst) : Shares (linearTaps src dst i) := by
  have hl := Nat.floor_le (linearPos_nonneg src dst i)
  have hh := Nat.lt_floor_add_one (linearPos src dst i)
  unfold linearTaps
  dsimp only
  split_ifs with heq
  · have hp := linearPos_eq_of_eq hi heq
    refine ⟨fun t ht => ?_, ?_⟩
    · rw [List.mem_singleton.mp ht]
      dsimp only
      linarith
    · simp only [List.map_cons, List.map_nil, List.sum_singleton]
      linarith
  · refine ⟨fun t ht => ?_, by simp⟩
    rcases List.mem_pair.mp ht with rfl | rfl <;> dsimp only <;> linarith

theorem shares_realTaps (src : ℕ) {dst : ℕ} (hi : i < dst) : Shares (realTaps src dst i) := by
  rcases Nat.lt_trichotomy dst src with hlt | heq | hgt
  · have hr : (0 : ℚ) < src := Nat.cast_pos.mpr (by omega)
    have hcv := covers_realTaps hlt hi
    refine ⟨fun t ht => ?_, ?_⟩
    · have hm : t.2 ∈ (realTaps src dst i).map Prod.snd := List.mem_map_of_mem ht
      rw [hcv] at hm
      obtain ⟨c, -, hc⟩ := List.mem_map.mp hm
      rw [← hc]
      positivity
    · have hs : ∀ l : List ℕ, (l.map fun c : ℕ => (c : ℚ) / src).sum = (l.sum : ℚ) / src := by
        intro l
        induction l with
        | nil => simp
        | cons c l ih => rw [List.map_cons, List.sum_cons, ih, List.sum_cons, Nat.cast_add, add_div]
      rw [hcv, hs, sum_covers hlt (by omega), div_self hr.ne']
  · rw [realTaps, if_pos heq]
    exact ⟨by simp, by simp⟩
  · rw [realTaps, if_neg hgt.ne', if_neg hgt.not_gt]
    exact shares_linearTaps hi

theorem realTaps_samples (hsr : 0 < src) (hi : i < dst) :
    ((realTaps src dst i).map Prod.fst).Nodup ∧ ∀ t ∈ realTaps src dst i, t.1 < src := by
  rcases Nat.lt_trichotomy dst src with hlt | heq | hgt
  · have hf : ⌊(i : ℚ) * ((src : ℚ) / dst)⌋₊ ≤ src := by
      have hd : (0 : ℚ) < dst := Nat.cast_pos.mpr (by omega)
      have hle : (i : ℚ) ≤ dst := Nat.cast_le.mpr hi.le
      refine Nat.floor_le_of_le ?_
      rw [← mul_div_assoc, div_le_iff₀ hd, mul_comm (src : ℚ)]
      exact mul_le_mul_of_nonneg_right hle (Nat.cast_nonneg src)
    rw [realTaps, if_neg hlt.ne, if_pos hlt]
    dsimp only
    obtain ⟨hn, hm⟩ := areaTaps_samples ((src : ℚ) / dst) (i * ((src : ℚ) / dst)) ((i + 1) * ((src : ℚ) / dst))
      (src - ⌊(i : ℚ) * ((src : ℚ) / dst)⌋₊) ⌊(i : ℚ) * ((src : ℚ) / dst)⌋₊
    refine ⟨hn, fun t ht => ?_⟩
    have h := hm t ht
    omega
  · rw [realTaps, if_pos heq]
    exact ⟨List.nodup_singleton i, fun t ht => by rw [List.mem_singleton.mp ht]; omega⟩
  · have hl : lastSample src = src - 1 := if_neg hsr.ne'
    have hfl := floor_linearPos_le src hi
    rw [realTaps, if_neg hgt.ne', if_neg hgt.not_gt]
    unfold linearTaps
    dsimp only
    split_ifs with hs
    · exact ⟨List.nodup_singleton _, fun t ht => by rw [List.mem_singleton.mp ht]; dsimp only; omega⟩
    · refine ⟨?_, fun t ht => ?_⟩
      · simpa using fun heq => hs heq.symm
      · rcases List.mem_pair.mp ht with rfl | rfl <;> dsimp only <;> omega

/-- The share of `c` units, in fixed point. -/
def share (src c : ℕ) : ℕ := (2 * (kResampleOne * c) + src) / (2 * src)

/-- **What the rounding may gain.** -/
def GainsLittle (src dst : ℕ) : Prop :=
  dst < src → ∀ i < dst,
    share src (headPart src dst i) + (src - headPart src dst i) / dst * share src dst +
      share src ((src - headPart src dst i) % dst) ≤ kResampleOne + share src dst

instance (src dst : ℕ) : Decidable (GainsLittle src dst) := inferInstanceAs (Decidable (_ → _))

theorem halfAway_share (hs : 0 < src) (c : ℕ) : halfAway ((c : ℚ) / src * kResampleOne) = share src c := by
  rw [share, ← halfAway_natCast_div _ hs, Nat.cast_mul]
  congr 1
  ring

theorem share_zero (hs : 0 < src) : share src 0 = 0 := by
  rw [share, Nat.mul_zero, Nat.mul_zero, Nat.zero_add]
  exact Nat.div_eq_of_lt (by omega)

theorem weightSum_rounded_realTaps (hlt : dst < src) (hi : i < dst) :
    weightSum (rounded kResampleOne (realTaps src dst i)) =
      (share src (headPart src dst i) + (src - headPart src dst i) / dst * share src dst +
        share src ((src - headPart src dst i) % dst) : ℕ) := by
  have hs : 0 < src := by omega
  have hz := share_zero hs
  have hm : ((rounded kResampleOne (realTaps src dst i)).map Prod.snd) =
      (covers src dst i).map fun c => (share src c : ℤ) := by
    have hrn : ((rounded kResampleOne (realTaps src dst i)).map Prod.snd) =
        ((realTaps src dst i).map Prod.snd).map fun w => halfAway (w * kResampleOne) := by
      rw [rounded, List.map_map, List.map_map]
      rfl
    rw [hrn, covers_realTaps hlt hi, List.map_map]
    exact List.map_congr_left fun c _ => halfAway_share hs c
  rw [weightSum, hm, covers, wholes]
  simp only [List.map_append, List.sum_append, List.map_replicate, List.sum_replicate, nsmul_eq_mul]
  split_ifs with hh hr hr
  · rw [hr, hh, hz]
    simp
  · rw [hh, hz]
    simp
  · rw [hr, hz]
    push_cast
    simp
  · push_cast
    simp [add_assoc]

theorem weights_nonneg_iff_at (hlt : dst < src) (hi : i < dst) :
    (∀ t ∈ buildAxisWeights src dst i, 0 ≤ t.2) ↔
      share src (headPart src dst i) + (src - headPart src dst i) / dst * share src dst +
        share src ((src - headPart src dst i) % dst) ≤ kResampleOne + share src dst := by
  have hsr : 0 < src := by omega
  have hd : 0 < dst := by omega
  have hr : (0 : ℚ) < src := Nat.cast_pos.mpr hsr
  have hs := shares_realTaps src hi
  have hwg : ∀ w ∈ (realTaps src dst i).map Prod.snd, w ≤ (dst : ℚ) / src := by
    intro w hw
    rw [covers_realTaps hlt hi] at hw
    obtain ⟨c, hc, rfl⟩ := List.mem_map.mp hw
    exact div_le_div_of_nonneg_right (Nat.cast_le.mpr (le_of_mem_covers hd hc)) hr.le
  rcases Nat.eq_zero_or_pos ((src - headPart src dst i) / dst) with hnn | hsm
  · -- two samples, of which none is covered as a whole
    have hl : (realTaps src dst i).length ≤ 2 := by
      rw [← List.length_map (f := Prod.snd), covers_realTaps hlt hi, List.length_map, covers, wholes, hnn]
      split_ifs <;> simp
    have hn : ∀ t ∈ buildAxisWeights src dst i, 0 ≤ t.2 := hs.quantise_nonneg_of_two hl (by decide)
    obtain ⟨M, hM, hmx⟩ := largest_taps hs.ne_nil
    have hM' := List.mem_of_getElem? hM
    have hm : 0 ≤ M := by
      obtain ⟨t, ht, rfl⟩ := List.mem_map.mp hM'
      exact hs.nonneg t ht
    have htt := (quantise_nonneg_iff kResampleOne hs.nonneg hM' hmx).mp hn
    have hrn := halfAway_mono (mul_nonneg hm (Nat.cast_nonneg kResampleOne))
      (mul_le_mul_of_nonneg_right (hwg M hM') (Nat.cast_nonneg kResampleOne))
    rw [halfAway_share hsr] at hrn
    rw [weightSum_rounded_realTaps hlt hi] at htt
    refine iff_of_true hn ?_
    have hle := htt.trans (add_le_add_right hrn _)
    exact_mod_cast hle
  · have hmm : (dst : ℚ) / src ∈ (realTaps src dst i).map Prod.snd := by
      rw [covers_realTaps hlt hi]
      refine List.mem_map.mpr ⟨dst, List.mem_append_right _ (List.mem_append_left _ ?_), rfl⟩
      exact List.mem_replicate.mpr ⟨hsm.ne', rfl⟩
    rw [buildAxisWeights, quantise_nonneg_iff kResampleOne hs.nonneg hmm hwg, halfAway_share hsr,
      weightSum_rounded_realTaps hlt hi]
    norm_cast

theorem linearTaps_length_le (src dst i : ℕ) : (linearTaps src dst i).length ≤ 2 := by
  unfold linearTaps
  dsimp only
  split_ifs <;> simp

theorem weights_nonneg_iff (src dst : ℕ) :
    (∀ i < dst, ∀ t ∈ buildAxisWeights src dst i, 0 ≤ t.2) ↔ GainsLittle src dst := by
  rcases Nat.lt_or_ge dst src with hlt | hge
  · constructor
    · intro h _ i hi
      exact (weights_nonneg_iff_at hlt hi).mp (h i hi)
    · intro h i hi
      exact (weights_nonneg_iff_at hlt hi).mpr (h hlt i hi)
  · refine iff_of_true (fun i hi => ?_) fun hlt => absurd hlt (Nat.not_lt.mpr hge)
    refine (shares_realTaps src hi).quantise_nonneg_of_two ?_ (by decide)
    rw [realTaps, if_neg (Nat.not_lt.mpr hge)]
    split_ifs
    · simp
    · exact linearTaps_length_le src dst i

end

end Sipi.Image
