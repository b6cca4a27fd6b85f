import Mathlib.Algebra.BigOperators.Ring.Finset
import Mathlib.Data.Rat.Floor
import Mathlib.Tactic.Positivity

/-!
# Weighted sums in fixed point

A weighted average of integers is computed with integer weights that add up to `one`.
-/

namespace Sipi.Theory

/-- The nearest integer, halves away from zero. -/
def halfAway (x : ℚ) : ℤ := if 0 ≤ x then ⌊x + 1 / 2⌋ else ⌈x - 1 / 2⌉

theorem halfAway_of_nonneg {x : ℚ} (hx : 0 ≤ x) : halfAway x = ⌊x + 1 / 2⌋ := if_pos hx

theorem halfAway_nonneg {x : ℚ} (hx : 0 ≤ x) : 0 ≤ halfAway x := by
  rw [halfAway_of_nonneg hx]
  exact Int.floor_nonneg.mpr (by linarith)

theorem halfAway_le_add {x : ℚ} (hx : 0 ≤ x) : (halfAway x : ℚ) ≤ x + 1 / 2 := by
  rw [halfAway_of_nonneg hx]
  exact Int.floor_le _

theorem halfAway_mono {x y : ℚ} (hx : 0 ≤ x) (hxy : x ≤ y) : halfAway x ≤ halfAway y := by
  rw [halfAway_of_nonneg hx, halfAway_of_nonneg (hx.trans hxy)]
  exact Int.floor_le_floor (by linarith)

theorem halfAway_le_two_mul {x : ℚ} (hx : 0 ≤ x) : (halfAway x : ℚ) ≤ 2 * x := by
  rcases le_or_gt (1 / 2) x with hh | hh
  · have hle := halfAway_le_add hx
    linarith
  · have hz : halfAway x = 0 := by
      rw [halfAway_of_nonneg hx]
      exact Int.floor_eq_zero_iff.mpr ⟨by linarith, by linarith⟩
    rw [hz]
    push_cast
    linarith

theorem halfAway_natCast (n : ℕ) : halfAway n = n := by
  rw [halfAway_of_nonneg (Nat.cast_nonneg n), Int.floor_eq_iff]
  push_cast
  constructor <;> linarith

theorem halfAway_bounds {x : ℚ} {a b : ℕ} (hx : 0 ≤ x) (ha : (a : ℚ) - 1 / 2 ≤ x) (hb : x ≤ b) :
    (a : ℤ) ≤ halfAway x ∧ halfAway x ≤ b := by
  rw [halfAway_of_nonneg hx, Int.le_floor, ← Int.lt_add_one_iff, Int.floor_lt]
  push_cast
  constructor <;> linarith

theorem halfAway_natCast_div (a : ℕ) {b : ℕ} (hb : 0 < b) :
    halfAway ((a : ℚ) / b) = ((2 * a + b) / (2 * b) : ℕ) := by
  have hb' : (0 : ℚ) < b := Nat.cast_pos.mpr hb
  have hs : (a : ℚ) / b + 1 / 2 = ((2 * a + b : ℕ) : ℚ) / ((2 * b : ℕ) : ℚ) := by
    push_cast
    field_simp
  rw [halfAway_of_nonneg (by positivity), hs, Rat.floor_natCast_div_natCast]
  norm_cast

/-! ### Weighted sums -/

section
variable {ι : Type}

/-- The sum of the values, each with its weight. -/
def dot (taps : List (ι × ℤ)) (v : ι → ℤ) : ℤ := (taps.map fun t => t.2 * v t.1).sum

/-- The sum of the weights. -/
def weightSum (taps : List (ι × ℤ)) : ℤ := (taps.map Prod.snd).sum

@[simp] theorem dot_nil (v : ι → ℤ) : dot [] v = 0 := rfl

@[simp] theorem dot_cons (t : ι × ℤ) (taps : List (ι × ℤ)) (v : ι → ℤ) :
    dot (t :: taps) v = t.2 * v t.1 + dot taps v := by
  simp [dot]

@[simp] theorem weightSum_nil : weightSum ([] : List (ι × ℤ)) = 0 := rfl

@[simp] theorem weightSum_cons (t : ι × ℤ) (taps : List (ι × ℤ)) : weightSum (t :: taps) = t.2 + weightSum taps := by
  simp [weightSum]

variable {taps : List (ι × ℤ)}

theorem dot_congr {v v' : ι → ℤ} (h : ∀ t ∈ taps, v t.1 = v' t.1) : dot taps v = dot taps v' := by
  unfold dot
  rw [List.map_congr_left fun t ht => by rw [h t ht]]

theorem weightSum_mul (taps : List (ι × ℤ)) (c : ℤ) : weightSum taps * c = (taps.map fun t => t.2 * c).sum :=
  (List.sum_map_mul_right ..).symm

theorem dot_const (taps : List (ι × ℤ)) {v : ι → ℤ} {c : ℤ} (hv : ∀ t ∈ taps, v t.1 = c) :
    dot taps v = weightSum taps * c := by
  rw [weightSum_mul, dot, List.map_congr_left fun t ht => by rw [hv t ht]]

theorem dot_le {v : ι → ℤ} {c : ℤ} (hw : ∀ t ∈ taps, 0 ≤ t.2) (hv : ∀ t ∈ taps, v t.1 ≤ c) :
    dot taps v ≤ weightSum taps * c := by
  rw [weightSum_mul]
  exact List.sum_le_sum fun t ht => mul_le_mul_of_nonneg_left (hv t ht) (hw t ht)

theorem le_dot {v : ι → ℤ} {c : ℤ} (hw : ∀ t ∈ taps, 0 ≤ t.2) (hv : ∀ t ∈ taps, c ≤ v t.1) :
    weightSum taps * c ≤ dot taps v := by
  rw [weightSum_mul]
  exact List.sum_le_sum fun t ht => mul_le_mul_of_nonneg_left (hv t ht) (hw t ht)

theorem weightSum_take_le (hw : ∀ t ∈ taps, 0 ≤ t.2) (q : ℕ) : weightSum (taps.take q) ≤ weightSum taps :=
  ((List.take_sublist q taps).map Prod.snd).sum_le_sum (List.forall_mem_map.mpr hw)

theorem between {v : ι → ℤ} {one half lo hi : ℤ} (hw : ∀ t ∈ taps, 0 ≤ t.2)
    (ht : weightSum taps = one) (hhl : 0 ≤ half) (ho : half < one) (hlo : ∀ t ∈ taps, lo ≤ v t.1)
    (hhi : ∀ t ∈ taps, v t.1 ≤ hi) : lo ≤ (half + dot taps v) / one ∧ (half + dot taps v) / one ≤ hi := by
  have hp : 0 < one := by omega
  have hl := le_dot hw hlo
  have hh := dot_le hw hhi
  rw [ht] at hl hh
  constructor
  · rw [Int.le_ediv_iff_mul_le hp]
    linarith
  · rw [← Int.lt_add_one_iff, Int.ediv_lt_iff_lt_mul hp]
    linarith

theorem dot_skip [DecidableEq ι] {taps : List (ι × ℤ)} (hn : (taps.map Prod.fst).Nodup) {t : ι × ℤ}
    (ht : t ∈ taps) (c : ℤ) : dot taps (fun s => if s = t.1 then 0 else c) = (weightSum taps - t.2) * c := by
  induction taps with
  | nil => cases ht
  | cons u taps ih =>
    rw [List.map_cons, List.nodup_cons] at hn
    rw [dot_cons, weightSum_cons]
    rcases List.mem_cons.mp ht with rfl | htl
    · have hr : dot taps (fun s => if s = t.1 then 0 else c) = weightSum taps * c := by
        refine dot_const taps fun u hu => if_neg fun heq => hn.1 ?_
        rw [← heq]
        exact List.mem_map_of_mem hu
      rw [hr, if_pos rfl]
      ring
    · have hne : u.1 ≠ t.1 := fun heq => hn.1 (heq ▸ List.mem_map_of_mem htl)
      rw [ih hn.2 htl, if_neg hne]
      ring

end

/-- The largest from place `i` on. -/
def largestFrom : List ℚ → ℕ → ℕ → ℚ → ℕ
  | [], _, m, _ => m
  | w :: ws, i, m, b => if b < w then largestFrom ws (i + 1) i w else largestFrom ws (i + 1) m b

/-- The place of the first of the largest. -/
def largest : List ℚ → ℕ
  | [] => 0
  | w :: ws => largestFrom ws 1 0 w

theorem largestFrom_spec (ws done : List ℚ) {m : ℕ} {b : ℚ} (hm : done[m]? = some b) (hmx : ∀ w ∈ done, w ≤ b) :
    ∃ M, (done ++ ws)[largestFrom ws done.length m b]? = some M ∧ ∀ w ∈ done ++ ws, w ≤ M := by
  induction ws generalizing done m b with
  | nil => exact ⟨b, by simpa [largestFrom] using hm, by simpa using hmx⟩
  | cons w ws ih =>
    have hs : done ++ w :: ws = (done ++ [w]) ++ ws := by simp
    have hln : (done ++ [w]).length = done.length + 1 := by simp
    rw [largestFrom, hs, ← hln]
    split_ifs with hlt
    · refine ih (done ++ [w]) (by simp) fun u hu => ?_
      rcases List.mem_append.mp hu with hd | hl
      · exact (hmx u hd).trans hlt.le
      · exact (List.mem_singleton.mp hl).le
    · refine ih (done ++ [w]) ?_ fun u hu => ?_
      · rw [List.getElem?_append_left (List.getElem?_eq_some_iff.mp hm).1]
        exact hm
      · rcases List.mem_append.mp hu with hd | hl
        · exact hmx u hd
        · rw [List.mem_singleton.mp hl]
          exact not_lt.mp hlt

theorem largest_spec {ws : List ℚ} (hne : ws ≠ []) : ∃ M, ws[largest ws]? = some M ∧ ∀ w ∈ ws, w ≤ M := by
  cases ws with
  | nil => exact absurd rfl hne
  | cons w ws => exact largestFrom_spec ws [w] rfl (by simp)

/-! ### Quantised weights -/

section
variable {ι : Type}

/-- Every weight times `one`, rounded. -/
def rounded (one : ℕ) (taps : List (ι × ℚ)) : List (ι × ℤ) := taps.map fun t => (t.1, halfAway (t.2 * one))

/-- The tap with `r` added to its weight. -/
def bump (r : ℤ) (t : ι × ℤ) : ι × ℤ := (t.1, t.2 + r)

/-- **Weights in fixed point**, the rest on the largest. -/
def quantise (one : ℕ) (taps : List (ι × ℚ)) : List (ι × ℤ) :=
  (rounded one taps).modify (largest (taps.map Prod.snd)) (bump (one - weightSum (rounded one taps)))

theorem weightSum_modify_bump (taps : List (ι × ℤ)) {m : ℕ} (hm : m < taps.length) (r : ℤ) :
    weightSum (taps.modify m (bump r)) = weightSum taps + r := by
  induction taps generalizing m with
  | nil => cases hm
  | cons t taps ih =>
    cases m with
    | zero =>
      rw [List.modify_zero_cons, weightSum_cons, weightSum_cons, bump]
      ring
    | succ m =>
      rw [List.modify_succ_cons, weightSum_cons, weightSum_cons, ih (Nat.lt_of_succ_lt_succ hm)]
      ring

theorem dot_take_modify (taps : List (ι × ℤ)) (m q : ℕ) (r : ℤ) (v : ι → ℤ) :
    ∃ c, (c = 0 ∨ ∃ t ∈ taps, c = v t.1) ∧
      dot ((taps.modify m (bump r)).take q) v = dot (taps.take q) v + r * c := by
  induction taps generalizing m q with
  | nil => exact ⟨0, Or.inl rfl, by simp⟩
  | cons t taps ih =>
    cases q with
    | zero => exact ⟨0, Or.inl rfl, by simp⟩
    | succ q =>
      cases m with
      | zero =>
        refine ⟨v t.1, Or.inr ⟨t, List.mem_cons_self, rfl⟩, ?_⟩
        rw [List.modify_zero_cons, List.take_succ_cons, List.take_succ_cons, dot_cons, dot_cons, bump]
        ring
      | succ m =>
        obtain ⟨c, hc, hd⟩ := ih m q
        refine ⟨c, hc.imp_right fun ⟨u, hu, heq⟩ => ⟨u, List.mem_cons_of_mem t hu, heq⟩, ?_⟩
        rw [List.modify_succ_cons, List.take_succ_cons, List.take_succ_cons, dot_cons, dot_cons, hd]
        ring

variable (one : ℕ)

theorem quantise_map_fst (taps : List (ι × ℚ)) : (quantise one taps).map Prod.fst = taps.map Prod.fst := by
  have hb : ∀ (l : List (ι × ℤ)) (m : ℕ) (r : ℤ), (l.modify m (bump r)).map Prod.fst = l.map Prod.fst := by
    intro l
    induction l with
    | nil => simp
    | cons t l ih =>
      intro m r
      cases m with
      | zero => rfl
      | succ m => simp [ih]
  rw [quantise, hb, rounded, List.map_map]
  rfl

variable {taps : List (ι × ℚ)}

theorem largest_taps (hne : taps ≠ []) :
    ∃ M, (taps.map Prod.snd)[largest (taps.map Prod.snd)]? = some M ∧ ∀ w ∈ taps.map Prod.snd, w ≤ M :=
  largest_spec (by simpa using hne)

theorem largest_lt (hne : taps ≠ []) (one : ℕ) : largest (taps.map Prod.snd) < (rounded one taps).length := by
  obtain ⟨M, hM, -⟩ := largest_taps hne
  have hlt := (List.getElem?_eq_some_iff.mp hM).1
  simpa [rounded] using hlt

theorem weightSum_quantise (hne : taps ≠ []) : weightSum (quantise one taps) = one := by
  rw [quantise, weightSum_modify_bump _ (largest_lt hne one)]
  ring

theorem rounded_nonneg (hw : ∀ t ∈ taps, 0 ≤ t.2) : ∀ t ∈ rounded one taps, 0 ≤ t.2 := by
  intro t ht
  obtain ⟨u, hu, rfl⟩ := List.mem_map.mp ht
  exact halfAway_nonneg (mul_nonneg (hw u hu) (Nat.cast_nonneg one))

theorem weightSum_rounded_le_sum {g : ι × ℚ → ℚ} (hg : ∀ t ∈ taps, (halfAway (t.2 * one) : ℚ) ≤ g t) :
    (weightSum (rounded one taps) : ℚ) ≤ (taps.map g).sum := by
  rw [weightSum, rounded, List.map_map, Int.cast_list_sum, List.map_map]
  exact List.sum_le_sum hg

theorem weightSum_rounded_le (hw : ∀ t ∈ taps, 0 ≤ t.2) :
    (weightSum (rounded one taps) : ℚ) ≤ 2 * one * (taps.map Prod.snd).sum := by
  refine (weightSum_rounded_le_sum one fun t ht =>
    halfAway_le_two_mul (mul_nonneg (hw t ht) (Nat.cast_nonneg one))).trans_eq ?_
  rw [List.sum_map_mul_left, List.sum_map_mul_right]
  ring

/-- Weights of an average. -/
structure Shares (taps : List (ι × ℚ)) : Prop where
  nonneg : ∀ t ∈ taps, 0 ≤ t.2
  sum : (taps.map Prod.snd).sum = 1

theorem Shares.ne_nil (h : Shares taps) : taps ≠ [] := by
  rintro rfl
  exact absurd h.sum (by simp)

theorem Shares.weightSum_rounded (h : Shares taps) (one : ℕ) : weightSum (rounded one taps) ≤ 2 * one := by
  have hle := weightSum_rounded_le one h.nonneg
  rw [h.sum, mul_one] at hle
  exact_mod_cast hle

theorem Shares.dot_bounds (h : Shares taps) (one : ℕ) {v : ι → ℤ} {top : ℤ}
    (hv : ∀ t ∈ taps, 0 ≤ v t.1 ∧ v t.1 ≤ top) (q : ℕ) :
    -(one * top) ≤ dot ((quantise one taps).take q) v ∧ dot ((quantise one taps).take q) v ≤ 2 * one * top := by
  set base := rounded one taps with hb
  have hw : ∀ t ∈ base, 0 ≤ t.2 := rounded_nonneg one h.nonneg
  have hv' : ∀ t ∈ base, 0 ≤ v t.1 ∧ v t.1 ≤ top := by
    intro t ht
    obtain ⟨u, hu, rfl⟩ := List.mem_map.mp ht
    exact hv u hu
  have htp : 0 ≤ top := by
    obtain ⟨t, ht⟩ := List.exists_mem_of_ne_nil _ h.ne_nil
    exact (hv t ht).1.trans (hv t ht).2
  have htt : weightSum base ≤ 2 * one := h.weightSum_rounded one
  have hl : 0 ≤ dot (base.take q) v := by
    have hle : weightSum (base.take q) * 0 ≤ dot (base.take q) v :=
      le_dot (fun t ht => hw t (List.mem_of_mem_take ht)) fun t ht => (hv' t (List.mem_of_mem_take ht)).1
    linarith
  have hh : dot (base.take q) v ≤ weightSum base * top := by
    have hle : dot (base.take q) v ≤ weightSum (base.take q) * top :=
      dot_le (fun t ht => hw t (List.mem_of_mem_take ht)) fun t ht => (hv' t (List.mem_of_mem_take ht)).2
    exact hle.trans (mul_le_mul_of_nonneg_right (weightSum_take_le hw q) htp)
  obtain ⟨c, hc, hd⟩ := dot_take_modify base (largest (taps.map Prod.snd)) q (one - weightSum base) v
  have hcl : 0 ≤ c ∧ c ≤ top := by
    rcases hc with rfl | ⟨t, ht, rfl⟩
    · exact ⟨le_rfl, htp⟩
    · exact hv' t ht
  rw [quantise, ← hb, hd]
  have ho : (0 : ℤ) ≤ one := Int.natCast_nonneg one
  -- a residual that is negative is at least minus one; one that is not fills the sum up to one
  rcases le_total 0 ((one : ℤ) - weightSum base) with hr | hr
  · have h1 := mul_nonneg hr hcl.1
    have h2 := mul_le_mul_of_nonneg_left hcl.2 hr
    have h3 := mul_nonneg ho htp
    constructor <;> linarith
  · have h1 := mul_nonneg (neg_nonneg.mpr hr) hcl.1
    have h2 := mul_le_mul_of_nonneg_left hcl.2 (neg_nonneg.mpr hr)
    have h3 : -((one : ℤ) - weightSum base) * top ≤ one * top := mul_le_mul_of_nonneg_right (by linarith) htp
    have h4 := mul_le_mul_of_nonneg_right htt htp
    constructor <;> linarith

theorem quantise_largest {M : ℚ} (hM : (taps.map Prod.snd)[largest (taps.map Prod.snd)]? = some M) :
    ∃ s, (s, halfAway (M * one) + (one - weightSum (rounded one taps))) ∈ quantise one taps := by
  rw [List.getElem?_map, Option.map_eq_some_iff] at hM
  obtain ⟨t, ht, rfl⟩ := hM
  refine ⟨t.1, List.mem_of_getElem? (i := largest (taps.map Prod.snd)) ?_⟩
  rw [quantise, List.getElem?_modify, rounded, List.getElem?_map, ht]
  simp [bump]

theorem mem_quantise {one : ℕ} {t : ι × ℤ} (ht : t ∈ quantise one taps) :
    t ∈ rounded one taps ∨
      ∃ u ∈ rounded one taps,
        (taps.map Prod.snd)[largest (taps.map Prod.snd)]?.map (fun M => halfAway (M * one)) = some u.2 ∧
          t.2 = u.2 + (one - weightSum (rounded one taps)) := by
  obtain ⟨j, hj⟩ := List.mem_iff_getElem?.mp ht
  rw [quantise, List.getElem?_modify] at hj
  split_ifs at hj with hp
  · rw [Option.map_eq_map, Option.map_eq_some_iff] at hj
    obtain ⟨u, hu, rfl⟩ := hj
    refine Or.inr ⟨u, List.mem_of_getElem? hu, ?_, rfl⟩
    rw [rounded, List.getElem?_map, Option.map_eq_some_iff] at hu
    obtain ⟨r, hr, rfl⟩ := hu
    rw [hp, List.getElem?_map, hr]
    rfl
  · rw [Option.map_eq_map, Option.map_id'] at hj
    exact Or.inl (List.mem_of_getElem? hj)

theorem quantise_nonneg_iff (hw : ∀ t ∈ taps, 0 ≤ t.2) {M : ℚ}
    (hM : M ∈ taps.map Prod.snd) (hm : ∀ w ∈ taps.map Prod.snd, w ≤ M) :
    (∀ t ∈ quantise one taps, 0 ≤ t.2) ↔ weightSum (rounded one taps) ≤ one + halfAway (M * one) := by
  obtain ⟨M', hM', hm'⟩ := largest_spec (List.ne_nil_of_mem hM)
  obtain rfl : M = M' := le_antisymm (hm' M hM) (hm M' (List.mem_of_getElem? hM'))
  constructor
  · intro h
    obtain ⟨s, hs⟩ := quantise_largest one hM'
    have hle : 0 ≤ halfAway (M * one) + (one - weightSum (rounded one taps)) := h _ hs
    linarith
  · intro hle t ht
    rcases mem_quantise ht with hp | ⟨u, -, hu, heq⟩
    · exact rounded_nonneg one hw t hp
    · rw [hM'] at hu
      have hl : halfAway (M * one) = u.2 := Option.some.inj hu
      rw [heq, ← hl]
      linarith

theorem Shares.weight_bounds (h : Shares taps) (one : ℕ) {t : ι × ℤ}
    (ht : t ∈ quantise one taps) : -(one : ℤ) ≤ t.2 ∧ t.2 ≤ 2 * one := by
  have hn := rounded_nonneg one h.nonneg
  have ho : (0 : ℤ) ≤ one := Int.natCast_nonneg one
  have htt := h.weightSum_rounded one
  have hs : ∀ u ∈ rounded one taps, u.2 ≤ weightSum (rounded one taps) := fun u hu =>
    List.single_le_sum (fun w hw => by
      obtain ⟨r, hr, rfl⟩ := List.mem_map.mp hw
      exact hn r hr) _ (List.mem_map_of_mem hu)
  rcases mem_quantise ht with hp | ⟨u, hu, -, heq⟩
  · have h0 := hn t hp
    have h1 := hs t hp
    omega
  · have h0 := hn u hu
    have h1 := hs u hu
    omega

theorem weightSum_rounded_le_add (hw : ∀ t ∈ taps, 0 ≤ t.2) :
    (weightSum (rounded one taps) : ℚ) ≤ one * (taps.map Prod.snd).sum + taps.length / 2 := by
  refine (weightSum_rounded_le_sum one fun t ht =>
    halfAway_le_add (mul_nonneg (hw t ht) (Nat.cast_nonneg one))).trans_eq ?_
  rw [List.sum_map_add, List.sum_map_mul_right, List.map_const', List.sum_replicate, nsmul_eq_mul]
  ring

theorem Shares.quantise_nonneg_of_two (h : Shares taps) (hln : taps.length ≤ 2) {one : ℕ}
    (ho : 0 < one) : ∀ t ∈ quantise one taps, 0 ≤ t.2 := by
  obtain ⟨M, hM, hm⟩ := largest_taps h.ne_nil
  have hl' : (taps.length : ℚ) ≤ 2 := by exact_mod_cast hln
  have hh : 1 / 2 ≤ M := by
    have hs := List.sum_le_card_nsmul _ M hm
    have hps : 0 ≤ M := by
      obtain ⟨t, ht, rfl⟩ := List.mem_map.mp (List.mem_of_getElem? hM)
      exact h.nonneg t ht
    rw [h.sum, List.length_map, nsmul_eq_mul] at hs
    have hle := mul_le_mul_of_nonneg_right hl' hps
    linarith
  have ho' : (1 : ℚ) ≤ one := by exact_mod_cast ho
  have hp : 1 / 2 ≤ M * one := by
    have hle := mul_le_mul hh ho' zero_le_one ((by norm_num : (0 : ℚ) ≤ 1 / 2).trans hh)
    linarith
  have hl : 1 ≤ halfAway (M * one) := by
    rw [halfAway_of_nonneg (by linarith)]
    exact Int.le_floor.mpr (by push_cast; linarith)
  refine (quantise_nonneg_iff one h.nonneg (List.mem_of_getElem? hM) hm).mpr ?_
  have htt : weightSum (rounded one taps) ≤ one + 1 := by
    have hle := weightSum_rounded_le_add one h.nonneg
    rw [h.sum, mul_one] at hle
    have hL' : (weightSum (rounded one taps) : ℚ) ≤ one + 1 := by linarith
    exact_mod_cast hL'
  linarith

end

end Sipi.Theory
