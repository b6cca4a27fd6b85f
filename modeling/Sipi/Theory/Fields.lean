import Mathlib.Data.List.Basic

/-!
# Texts made of fields

A text is made by joining fields with a separator that stands in none of them, or by writing a number in decimal.
-/

namespace Sipi.Theory

section
variable {α : Type} {sep : α}

theorem splitOn_inj [DecidableEq α] {u v : List α} (h : u.splitOn sep = v.splitOn sep) : u = v := by
  have hj := congrArg [sep].intercalate h
  rwa [List.intercalate_splitOn, List.intercalate_splitOn] at hj

theorem append_sep_inj {a a' b b' : List α} (ha : sep ∉ a) (ha' : sep ∉ a') (h : a ++ sep :: b = a' ++ sep :: b') :
    a = a' ∧ b = b' := by
  classical
  have hs := congrArg (List.splitOn sep) h
  rw [List.splitOn_append_cons_self_of_not_mem ha, List.splitOn_append_cons_self_of_not_mem ha'] at hs
  obtain ⟨hf, hr⟩ := List.cons.inj hs
  exact ⟨hf, splitOn_inj hr⟩

theorem intercalate_cons_cons (sep : α) (u v : List α) (rest : List (List α)) :
    [sep].intercalate (u :: v :: rest) = u ++ sep :: [sep].intercalate (v :: rest) := by
  simp [List.intercalate, List.intersperse]

theorem getLast?_intercalate (sep : α) (l : List (List α)) {w : List α} (hw : w ≠ []) :
    ([sep].intercalate (l ++ [w])).getLast? = w.getLast? := by
  induction l with
  | nil => simp [List.intercalate]
  | cons v l ih =>
    obtain ⟨u, rest, hr⟩ := List.exists_cons_of_ne_nil (List.append_ne_nil_of_right_ne_nil l (List.cons_ne_nil w []))
    rw [List.cons_append, hr, intercalate_cons_cons, ← hr, List.getLast?_append, List.getLast?_cons, ih,
      List.getLast?_eq_some_getLast hw]
    rfl

theorem not_mem_intercalate {c : α} (hc : c ≠ sep) {l : List (List α)} (hl : ∀ w ∈ l, c ∉ w) :
    c ∉ [sep].intercalate l := by
  induction l with
  | nil => exact List.not_mem_nil
  | cons w l ih =>
    cases l with
    | nil => simpa [List.intercalate] using hl w List.mem_cons_self
    | cons v l =>
      rw [intercalate_cons_cons, List.mem_append, List.mem_cons]
      rintro (hm | hm | hm)
      · exact hl w List.mem_cons_self hm
      · exact hc hm
      · exact ih (fun u hu => hl u (List.mem_cons_of_mem w hu)) hm

theorem intercalate_inj {l l' : List (List α)} (hln : l.length = l'.length) (hl : ∀ w ∈ l, sep ∉ w)
    (hl' : ∀ w ∈ l', sep ∉ w) (h : [sep].intercalate l = [sep].intercalate l') : l = l' := by
  classical
  rcases eq_or_ne l [] with rfl | hne
  · exact (List.length_eq_zero_iff.mp hln.symm).symm
  · have hne' : l' ≠ [] := fun hn => hne (List.length_eq_zero_iff.mp (by rw [hln, hn, List.length_nil]))
    rw [← List.splitOn_intercalate sep hl hne, h, List.splitOn_intercalate sep hl' hne']

theorem append_sep_eq_iff {a a' b b' : List α} :
    a ++ sep :: b = a' ++ sep :: b' ↔
      (a = a' ∧ b = b') ∨ (∃ m, a = a' ++ sep :: m ∧ b' = m ++ sep :: b) ∨
        ∃ m, a' = a ++ sep :: m ∧ b = m ++ sep :: b' := by
  constructor
  · intro h
    rcases List.append_eq_append_iff.mp h with ⟨m, ha, hb⟩ | ⟨m, ha, hb⟩
    · cases m with
      | nil => exact Or.inl ⟨by simpa using ha.symm, (List.cons.inj hb).2⟩
      | cons c m =>
        obtain ⟨rfl, hr⟩ := List.cons.inj hb
        exact Or.inr (Or.inr ⟨m, ha, hr⟩)
    · cases m with
      | nil => exact Or.inl ⟨by simpa using ha, (List.cons.inj hb).2.symm⟩
      | cons c m =>
        obtain ⟨rfl, hr⟩ := List.cons.inj hb
        exact Or.inr (Or.inl ⟨m, ha, hr⟩)
  · rintro (⟨rfl, rfl⟩ | ⟨m, rfl, rfl⟩ | ⟨m, rfl, rfl⟩)
    · rfl
    · rw [List.append_assoc, List.cons_append]
    · rw [List.append_assoc, List.cons_append]

end

section
variable {α : Type} [DecidableEq α] {sep : α}

theorem sep_induction (sep : α) {motive : List α → Prop} (one : ∀ a, sep ∉ a → motive a)
    (more : ∀ a b, sep ∉ a → motive b → motive (a ++ sep :: b)) (s : List α) : motive s := by
  induction hn : s.length using Nat.strongRecOn generalizing s with
  | _ n ih =>
    by_cases hs : sep ∈ s
    · obtain ⟨a, b, rfl, ha⟩ := List.eq_append_cons_of_mem hs
      exact more a b ha (ih b.length (by simp at hn; omega) b rfl)
    · exact one s hs

theorem splitOn_append_sep (u v : List α) : (u ++ sep :: v).splitOn sep = u.splitOn sep ++ v.splitOn sep := by
  induction u using sep_induction sep with
  | one a ha => rw [List.splitOn_append_cons_self_of_not_mem ha, List.splitOn_eq_singleton ha, List.singleton_append]
  | more a b ha ih =>
    rw [List.append_assoc, List.cons_append, List.splitOn_append_cons_self_of_not_mem ha, ih,
      List.splitOn_append_cons_self_of_not_mem ha, List.cons_append]

theorem append_intercalate_inj {x x' : List α} {l l' : List (List α)} (hln : l.length = l'.length)
    (hl : ∀ w ∈ l, sep ∉ w) (hl' : ∀ w ∈ l', sep ∉ w)
    (h : x ++ sep :: [sep].intercalate l = x' ++ sep :: [sep].intercalate l') : x = x' ∧ l = l' := by
  rcases eq_or_ne l [] with rfl | hne
  · obtain rfl := List.length_eq_zero_iff.mp hln.symm
    exact ⟨List.append_cancel_right h, rfl⟩
  · have hne' : l' ≠ [] := fun hn => hne (List.length_eq_zero_iff.mp (by rw [hln, hn, List.length_nil]))
    have hs := congrArg (List.splitOn sep) h
    rw [splitOn_append_sep, splitOn_append_sep, List.splitOn_intercalate sep hl hne,
      List.splitOn_intercalate sep hl' hne'] at hs
    obtain ⟨hx, hr⟩ := List.append_inj' hs hln
    exact ⟨splitOn_inj hx, hr⟩

theorem mem_splitOn_iff {w : List α} (hw : sep ∉ w) (s : List α) :
    w ∈ s.splitOn sep ↔ s = w ∨ (w ++ [sep]) <+: s ∨ (sep :: w) <:+ s ∨ (sep :: (w ++ [sep])) <:+: s := by
  constructor
  · intro hm
    induction s using sep_induction sep with
    | one a ha =>
      rw [List.splitOn_eq_singleton ha, List.mem_singleton] at hm
      exact Or.inl hm.symm
    | more a b ha ih =>
      rw [List.splitOn_append_cons_self_of_not_mem ha, List.mem_cons] at hm
      rcases hm with rfl | hm
      · exact Or.inr (Or.inl ⟨b, by simp⟩)
      · rcases ih hm with rfl | ⟨t, rfl⟩ | ⟨t, rfl⟩ | ⟨t, u, rfl⟩
        · exact Or.inr (Or.inr (Or.inl ⟨a, rfl⟩))
        · exact Or.inr (Or.inr (Or.inr ⟨a, t, by simp⟩))
        · exact Or.inr (Or.inr (Or.inl ⟨a ++ sep :: t, by simp⟩))
        · exact Or.inr (Or.inr (Or.inr ⟨a ++ sep :: t, u, by simp⟩))
  · have hs : w ∈ w.splitOn sep := by
      rw [List.splitOn_eq_singleton hw]
      exact List.mem_singleton_self w
    rintro (rfl | ⟨t, rfl⟩ | ⟨t, rfl⟩ | ⟨t, u, rfl⟩)
    · exact hs
    · rw [List.append_assoc, List.singleton_append, splitOn_append_sep]
      exact List.mem_append_left _ hs
    · rw [splitOn_append_sep]
      exact List.mem_append_right _ hs
    · rw [List.append_assoc, List.cons_append, List.append_assoc, List.singleton_append, splitOn_append_sep,
        splitOn_append_sep]
      exact List.mem_append_right _ (List.mem_append_left _ hs)

theorem splitOn_isPrefix_iff (u v : List α) : u.splitOn sep <+: v.splitOn sep ↔ v = u ∨ ∃ w, v = u ++ sep :: w := by
  constructor
  · intro h
    induction u using sep_induction sep generalizing v with
    | one a ha =>
      rw [List.splitOn_eq_singleton ha] at h
      by_cases hv : sep ∈ v
      · obtain ⟨b, w, rfl, hb⟩ := List.eq_append_cons_of_mem hv
        rw [List.splitOn_append_cons_self_of_not_mem hb, List.cons_prefix_cons] at h
        exact .inr ⟨w, by rw [h.1]⟩
      · rw [List.splitOn_eq_singleton hv, List.cons_prefix_cons] at h
        exact .inl h.1.symm
    | more a b ha ih =>
      rw [List.splitOn_append_cons_self_of_not_mem ha] at h
      by_cases hv : sep ∈ v
      · obtain ⟨a', v, rfl, ha'⟩ := List.eq_append_cons_of_mem hv
        rw [List.splitOn_append_cons_self_of_not_mem ha', List.cons_prefix_cons] at h
        obtain ⟨rfl, hr⟩ := h
        rcases ih v hr with rfl | ⟨w, rfl⟩
        · exact .inl rfl
        · exact .inr ⟨w, by rw [List.append_assoc, List.cons_append]⟩
      · -- one field does not begin with two
        rw [List.splitOn_eq_singleton hv, List.cons_prefix_cons] at h
        exact absurd (List.prefix_nil.1 h.2) (List.splitOn_ne_nil _ _)
  · rintro (rfl | ⟨w, rfl⟩)
    · exact List.prefix_rfl
    · rw [splitOn_append_sep]
      exact List.prefix_append _ _

end

/-- A number in decimal. -/
def decimal (n : ℕ) : List Char := Nat.toDigits 10 n

theorem decimal_inj {m n : ℕ} (h : decimal m = decimal n) : m = n := by
  rw [← Nat.ofDigitChars_toDigits (b := 10) (n := m) (by decide) (by decide),
    ← Nat.ofDigitChars_toDigits (b := 10) (n := n) (by decide) (by decide)]
  exact congrArg (fun s => Nat.ofDigitChars 10 s 0) h

theorem isDigit_of_mem_decimal {c : Char} {n : ℕ} (h : c ∈ decimal n) : c.isDigit = true :=
  Nat.isDigit_of_mem_toDigits (by decide) (by decide) h

theorem not_mem_decimal {c : Char} (hc : c.isDigit = false) (n : ℕ) : c ∉ decimal n := by
  intro hm
  rw [isDigit_of_mem_decimal hm] at hc
  cases hc

/-- Numbers in decimal, joined. -/
def decimals (sep : Char) (ns : List ℕ) : List Char := [sep].intercalate (ns.map decimal)

theorem not_mem_decimals {c : Char} (sep : Char) (hc : c.isDigit = false) (hs : c ≠ sep) (ns : List ℕ) :
    c ∉ decimals sep ns := by
  refine not_mem_intercalate hs fun w hw => ?_
  obtain ⟨n, _, rfl⟩ := List.mem_map.mp hw
  exact not_mem_decimal hc n

theorem decimals_inj (sep : Char) (hs : sep.isDigit = false) {ms ns : List ℕ} (hl : ms.length = ns.length)
    (h : decimals sep ms = decimals sep ns) : ms = ns := by
  have ha : ∀ (ks : List ℕ), ∀ w ∈ ks.map decimal, sep ∉ w := by
    intro ks w hw
    obtain ⟨n, _, rfl⟩ := List.mem_map.mp hw
    exact not_mem_decimal hs n
  have hm := intercalate_inj (by simpa using hl) (ha ms) (ha ns) h
  exact List.map_injective_iff.mpr (fun _ _ => decimal_inj) hm

end Sipi.Theory
