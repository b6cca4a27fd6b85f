import Mathlib.Data.Nat.Digits.Lemmas

/-!
# Numbers in a base

Numerals as programs write them: the most significant digit first, and one digit for zero.
-/

namespace Sipi.Theory

namespace Positional

variable {b : ℕ}

/-- The number that digits stand for. -/
def value (b : ℕ) (ds : List ℕ) : ℕ := ds.foldl (fun v d => v * b + d) 0

/-- The digits of a number. -/
def numeral (b n : ℕ) : List ℕ := if n = 0 then [0] else (Nat.digits b n).reverse

/-- Digits, with zeros up to a width. -/
def fixed (b w n : ℕ) : List ℕ := List.replicate (w - (numeral b n).length) 0 ++ numeral b n

theorem value_concat (ds : List ℕ) (d : ℕ) : value b (ds ++ [d]) = value b ds * b + d := by
  simp [value]

theorem value_eq_ofDigits (ds : List ℕ) : value b ds = Nat.ofDigits b ds.reverse := by
  induction ds using List.reverseRecOn with
  | nil => rfl
  | append_singleton ds d ih =>
    rw [value_concat, ih, List.reverse_append, List.reverse_singleton, List.singleton_append, Nat.ofDigits_cons]
    ring

theorem value_append (ds es : List ℕ) : value b (ds ++ es) = value b ds * b ^ es.length + value b es := by
  rw [value_eq_ofDigits, value_eq_ofDigits, value_eq_ofDigits, List.reverse_append, Nat.ofDigits_append,
    List.length_reverse]
  ring

theorem value_replicate_append (k : ℕ) (ds : List ℕ) : value b (List.replicate k 0 ++ ds) = value b ds := by
  rw [value_eq_ofDigits, value_eq_ofDigits, List.reverse_append, List.reverse_replicate,
    Nat.ofDigits_append_replicate_zero]

theorem value_inj (hb : 1 < b) {ds es : List ℕ} (hl : ds.length = es.length) (hds : ∀ d ∈ ds, d < b)
    (hes : ∀ d ∈ es, d < b) (h : value b ds = value b es) : ds = es := by
  rw [value_eq_ofDigits, value_eq_ofDigits] at h
  apply List.reverse_injective
  apply Nat.ofDigits_inj_of_len_eq hb _ _ _ h
  · simpa using hl
  · simpa using hds
  · simpa using hes

theorem value_lt_pow (hb : 1 < b) {ds : List ℕ} (hds : ∀ d ∈ ds, d < b) : value b ds < b ^ ds.length := by
  rw [value_eq_ofDigits, ← List.length_reverse]
  exact Nat.ofDigits_lt_base_pow_length hb (by simpa using hds)

theorem numeral_lt (hb : 1 < b) {n d : ℕ} (hd : d ∈ numeral b n) : d < b := by
  unfold numeral at hd
  split_ifs at hd with hn
  · rw [List.mem_singleton] at hd
    omega
  · exact Nat.digits_lt_base hb (List.mem_reverse.mp hd)

theorem value_numeral (n : ℕ) : value b (numeral b n) = n := by
  unfold numeral
  split_ifs with hn
  · simp [value, hn]
  · rw [value_eq_ofDigits, List.reverse_reverse, Nat.ofDigits_digits]

theorem numeral_ne_nil (n : ℕ) : numeral b n ≠ [] := by
  unfold numeral
  split_ifs with hn
  · simp
  · simpa [Nat.digits_eq_nil_iff_eq_zero] using hn

theorem length_numeral_le (hb : 1 < b) {n w : ℕ} (hw : 0 < w) (h : n < b ^ w) : (numeral b n).length ≤ w := by
  unfold numeral
  split_ifs with hn
  · exact hw
  · rw [List.length_reverse]
    exact (Nat.digits_length_le_iff hb n).mpr h

theorem numeral_step (hb : 1 < b) (n : ℕ) :
    numeral b n = if n / b = 0 then [n % b] else numeral b (n / b) ++ [n % b] := by
  unfold numeral
  rcases Nat.eq_zero_or_pos n with rfl | hn
  · simp
  · rw [if_neg hn.ne', Nat.digits_def' hb hn, List.reverse_cons]
    split_ifs with hq
    · simp [hq]
    · rfl

theorem value_fixed (w n : ℕ) : value b (fixed b w n) = n := by
  rw [fixed, value_replicate_append, value_numeral]

theorem fixed_lt (hb : 1 < b) {w n d : ℕ} (hd : d ∈ fixed b w n) : d < b := by
  rcases List.mem_append.mp hd with hz | hn
  · rw [List.eq_of_mem_replicate hz]
    omega
  · exact numeral_lt hb hn

theorem length_fixed (hb : 1 < b) {w n : ℕ} (hw : 0 < w) (h : n < b ^ w) : (fixed b w n).length = w := by
  have hle := length_numeral_le hb hw h
  rw [fixed, List.length_append, List.length_replicate]
  omega

theorem eq_fixed (hb : 1 < b) {ds : List ℕ} (hne : ds ≠ []) (hds : ∀ d ∈ ds, d < b) :
    ds = fixed b ds.length (value b ds) :=
  value_inj hb (length_fixed hb (List.length_pos_iff.mpr hne) (value_lt_pow hb hds)).symm hds
    (fun _ hd => fixed_lt hb hd) (value_fixed _ _).symm

theorem eq_replicate_append_numeral (hb : 1 < b) {ds : List ℕ} (hne : ds ≠ []) (hds : ∀ d ∈ ds, d < b) :
    ∃ k, ds = List.replicate k 0 ++ numeral b (value b ds) :=
  ⟨_, eq_fixed hb hne hds⟩

theorem fixed_append (hb : 1 < b) {v w n : ℕ} (hv : 0 < v) (hw : 0 < w) (h : n < b ^ (v + w)) :
    fixed b (v + w) n = fixed b v (n / b ^ w) ++ fixed b w (n % b ^ w) := by
  have hp : 0 < b ^ w := Nat.pow_pos (by omega)
  have hh : n / b ^ w < b ^ v := by
    rw [Nat.div_lt_iff_lt_mul hp, ← pow_add]
    exact h
  have hl := Nat.mod_lt n hp
  apply value_inj hb
  · rw [List.length_append, length_fixed hb (by omega) h, length_fixed hb hv hh, length_fixed hb hw hl]
  · exact fun d hd => fixed_lt hb hd
  · intro d hd
    rcases List.mem_append.mp hd with hd | hd <;> exact fixed_lt hb hd
  · rw [value_append, value_fixed, value_fixed, value_fixed, length_fixed hb hw hl, Nat.div_add_mod']

/-- A number below the bound. -/
def checked (bound n : ℕ) : Option ℕ := if n < bound then some n else none

/-- Each product and sum is checked. -/
def readNumber {α : Type*} (b bound : ℕ) (digit : α → Option ℕ) (s : List α) : Option ℕ :=
  s.foldlM (fun v a => do
    let d ← digit a
    let m ← checked bound (v * b)
    checked bound (m + d)) 0

theorem readNumber_eq_some_iff {α : Type*} {bound : ℕ} {digit : α → Option ℕ} (hb : 0 < b) (hbn : 0 < bound)
    {s : List α} {v : ℕ} :
    readNumber b bound digit s = some v ↔ v < bound ∧ ∃ ds, s.map digit = ds.map some ∧ value b ds = v := by
  induction s using List.reverseRecOn generalizing v with
  | nil =>
    constructor
    · intro h
      obtain rfl : 0 = v := by simpa [readNumber] using h
      exact ⟨hbn, [], rfl, rfl⟩
    · rintro ⟨-, ds, hds, rfl⟩
      obtain rfl : ds = [] := by simpa using hds.symm
      rfl
  | append_singleton s a ih =>
    have hs : readNumber b bound digit (s ++ [a]) = some v ↔
        ∃ w, readNumber b bound digit s = some w ∧ ∃ d, digit a = some d ∧ w * b + d < bound ∧ w * b + d = v := by
      simp only [readNumber, List.foldlM_append, List.foldlM_cons, List.foldlM_nil, Option.bind_eq_bind,
        Option.bind_eq_some_iff, checked, Option.ite_none_right_eq_some, Option.pure_def, Option.some.injEq,
        exists_eq_right]
      constructor
      · rintro ⟨w, hw, d, hd, m, ⟨-, rfl⟩, hsm, rfl⟩
        exact ⟨w, hw, d, hd, hsm, rfl⟩
      · rintro ⟨w, hw, d, hd, hsm, rfl⟩
        exact ⟨w, hw, d, hd, w * b, ⟨by omega, rfl⟩, hsm, rfl⟩
    rw [hs]
    constructor
    · rintro ⟨w, hw, d, hd, hsm, rfl⟩
      obtain ⟨-, ds, hds, rfl⟩ := ih.mp hw
      refine ⟨hsm, ds ++ [d], ?_, value_concat ds d⟩
      rw [List.map_append, List.map_append, hds, List.map_singleton, List.map_singleton, hd]
    · rintro ⟨hv, es, hes, rfl⟩
      rw [List.map_append, List.map_singleton] at hes
      obtain ⟨ds, ls, rfl, hds, hls⟩ := List.map_eq_append_iff.mp hes.symm
      obtain ⟨d, rfl, hd⟩ := List.map_eq_singleton_iff.mp hls
      rw [value_concat] at hv ⊢
      have hle : value b ds ≤ value b ds * b := Nat.le_mul_of_pos_right _ hb
      exact ⟨value b ds, ih.mpr ⟨by omega, ds, hds.symm, rfl⟩, d, hd.symm, hv, rfl⟩

end Positional

end Sipi.Theory
