import Mathlib.Data.List.Infix

/-!
# The first occurrence of a list in another

* `search needle hay` — where `needle` first occurs in `hay`.
-/

namespace Sipi.Theory

variable {α : Type*} [DecidableEq α]

/-- The first place at which `needle` occurs. -/
def search (needle : List α) : List α → Option ℕ
  | [] => if needle = [] then some 0 else none
  | x :: rest => if needle <+: x :: rest then some 0 else (search needle rest).map (· + 1)

theorem search_of_prefix {needle hay : List α} (h : needle <+: hay) : search needle hay = some 0 := by
  cases hay with
  | nil => rw [search, if_pos (List.prefix_nil.1 h)]
  | cons x rest => rw [search, if_pos h]

theorem search_eq_some {needle hay : List α} {p : ℕ} (h : search needle hay = some p) :
    ∃ rest, hay = hay.take p ++ needle ++ rest ∧ p + needle.length ≤ hay.length := by
  induction hay generalizing p with
  | nil =>
    rw [search] at h
    split at h
    · next hn =>
      cases h
      exact ⟨[], by simp [hn], by simp [hn]⟩
    · cases h
  | cons x hay ih =>
    rw [search] at h
    split at h
    · next hs =>
      cases h
      have hle := hs.length_le
      obtain ⟨rest, hr⟩ := hs
      exact ⟨rest, by simp [hr], by omega⟩
    · obtain ⟨q, hq, rfl⟩ := Option.map_eq_some_iff.1 h
      obtain ⟨rest, hr, hle⟩ := ih hq
      refine ⟨rest, ?_, ?_⟩
      · rw [List.take_succ_cons, List.cons_append, List.cons_append, ← hr]
      · rw [List.length_cons]
        omega

theorem search_eq_none_iff {needle hay : List α} : search needle hay = none ↔ ¬ needle <:+: hay := by
  induction hay with
  | nil =>
    rw [search, List.infix_nil]
    split
    · next hn => simp [hn]
    · next hne => simp [hne]
  | cons x hay ih =>
    rw [search, List.infix_cons_iff]
    split
    · next hs => simp [hs]
    · next hnt => simp [hnt, ih]

omit [DecidableEq α] in
theorem infix_append_iff {a : α} {needle before rest : List α} (ha : a ∉ before) :
    a :: needle <:+: before ++ rest ↔ a :: needle <:+: rest := by
  induction before with
  | nil => rfl
  | cons x before ih =>
    rw [List.mem_cons, not_or] at ha
    rw [List.cons_append, List.infix_cons_iff, ih ha.2, List.cons_prefix_cons]
    simp [ha.1]

end Sipi.Theory
