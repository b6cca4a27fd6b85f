import Mathlib.Data.List.AList
import Mathlib.Algebra.BigOperators.Group.List.Basic
import Mathlib.Algebra.Ring.Int.Defs

/-!
# Totals over a table

A table is Mathlib's `AList` with one type of values.
-/

namespace Sipi.Theory

variable {α β M : Type*} [DecidableEq α] [AddCommMonoid M]

/-- A table from `α` to `β`. -/
abbrev Table (α β : Type*) := AList fun _ : α => β

/-- The sum of `f` over the values of a table. -/
def total (f : β → M) (t : Table α β) : M := (t.entries.map fun e => f e.2).sum

variable {f : β → M} {t : Table α β} {a : α} {b : β}

theorem total_eq_add_erase (h : t.lookup a = some b) : total f t = f b + total f (t.erase a) := by
  have hm : a ∈ t.entries.keys := AList.lookup_isSome.mp (by rw [h]; rfl)
  obtain ⟨b', l₁, l₂, hl₁, hl, hk⟩ := List.exists_of_kerase hm
  have hb : b = b' := by
    have hlk : List.dlookup a t.entries = some b := h
    have hin : ⟨a, b'⟩ ∈ t.entries := by
      rw [hl]
      exact List.mem_append_right l₁ (List.mem_cons_self ..)
    exact Option.some.inj (hlk.symm.trans (List.mem_dlookup t.nodupKeys hin))
  subst hb
  have he : (t.erase a).entries = l₁ ++ l₂ := hk
  simp only [total, hl, he, List.map_append, List.map_cons, List.sum_append, List.sum_cons]
  exact add_left_comm _ _ _

omit [AddCommMonoid M] in
theorem lookup_of_lookup_insert {a' : α} {b' : β} (h : (t.insert a b).lookup a' = some b') :
    (a' = a ∧ b' = b) ∨ (a' ≠ a ∧ t.lookup a' = some b') := by
  by_cases ha : a' = a
  · subst ha
    rw [AList.lookup_insert] at h
    exact Or.inl ⟨rfl, (Option.some.inj h).symm⟩
  · rw [AList.lookup_insert_ne ha] at h
    exact Or.inr ⟨ha, h⟩

theorem erase_eq_of_lookup_none (h : t.lookup a = none) : t.erase a = t := by
  have hm : a ∉ t.entries.keys := AList.lookup_eq_none.mp h
  exact AList.ext (List.kerase_of_notMem_keys hm)

omit [DecidableEq α] in
theorem length_eq_total : t.entries.length = total (fun _ => 1) t := by
  simp [total]

theorem total_insert : total f (t.insert a b) = f b + total f (t.erase a) := by
  rw [total, AList.entries_insert, List.map_cons, List.sum_cons]
  rfl

end Sipi.Theory
