import Mathlib.Tactic.Common

/-!
# While loops

`whileLoop cond body n a` runs `while (cond) body` from `a` for at most `n` tests of the condition.
-/

namespace Sipi.Theory

variable {α : Type*} {cond : α → Bool} {body : α → α} {Inv : α → Prop}

/-- A while loop of at most so many tests. -/
def whileLoop (cond : α → Bool) (body : α → α) : ℕ → α → Option α
  | 0, _ => none
  | n + 1, a => if cond a then whileLoop cond body n (body a) else some a

theorem whileLoop_of_false (cond : α → Bool) (body : α → α) {a : α} (h : cond a = false) (n : ℕ) :
    whileLoop cond body (n + 1) a = some a := by
  rw [whileLoop, h]
  rfl

theorem whileLoop_of_variant (variant : α → ℕ)
    (hs : ∀ a, Inv a → cond a = true → Inv (body a) ∧ variant (body a) < variant a) {a : α} (ha : Inv a) :
    ∃ n b, whileLoop cond body (n + 1) a = some b ∧ Inv b ∧ cond b = false := by
  induction hv : variant a using Nat.strongRecOn generalizing a with
  | ind v ih =>
    cases hc : cond a with
    | false => exact ⟨0, a, whileLoop_of_false cond body hc 0, ha, hc⟩
    | true =>
      obtain ⟨hi, hlt⟩ := hs a ha hc
      obtain ⟨n, b, hl, hb⟩ := ih _ (hv ▸ hlt) hi rfl
      refine ⟨n + 1, b, ?_, hb⟩
      rw [whileLoop, hc]
      exact hl

theorem whileLoop_eq_none (Inv : α → Prop) (hs : ∀ a, Inv a → cond a = true ∧ Inv (body a)) (n : ℕ) {a : α}
    (ha : Inv a) : whileLoop cond body n a = none := by
  induction n generalizing a with
  | zero => rfl
  | succ n ih =>
    obtain ⟨hc, hi⟩ := hs a ha
    rw [whileLoop, hc]
    exact ih hi

end Sipi.Theory
