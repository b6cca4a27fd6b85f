import Mathlib.Logic.Basic

/-!
# Programs that make calls

Code that is handed a table of callbacks is a program that makes calls and goes on with the replies.
-/

namespace Sipi.Theory

/-- A program that makes calls and gets replies. -/
inductive Interaction (C : Type*) (R : C → Type*) (α : Type*)
  | done (a : α)
  | call (c : C) (k : R c → Interaction C R α)

namespace Interaction

variable {C : Type*} {R : C → Type*} {α β σ τ : Type*}

/-- A function applied to the result. -/
def map (f : α → β) : Interaction C R α → Interaction C R β
  | done a => done (f a)
  | call c k => call c fun r => (k r).map f

/-- The program, with a handler for its calls. -/
def run (handle : (c : C) → σ → R c × σ) : Interaction C R α → σ → α × σ
  | done a, s => (a, s)
  | call c k, s => (k (handle c s).1).run handle (handle c s).2

variable {handle : (c : C) → σ → R c × σ}

theorem run_invariant (I : σ → Prop) (hst : ∀ c s, I s → I (handle c s).2)
    (p : Interaction C R α) {s : σ} (hs : I s) : I (p.run handle s).2 := by
  induction p generalizing s with
  | done a => exact hs
  | call c k ih => exact ih _ (hst c s hs)

theorem run_simulation {ha' : (c : C) → τ → R c × τ} (rel : σ → τ → Prop)
    (hs : ∀ c s t, rel s t → (handle c s).1 = (ha' c t).1 ∧ rel (handle c s).2 (ha' c t).2)
    (p : Interaction C R α) {s : σ} {t : τ} (h : rel s t) :
    (p.run handle s).1 = (p.run ha' t).1 ∧ rel (p.run handle s).2 (p.run ha' t).2 := by
  induction p generalizing s t with
  | done a => exact ⟨rfl, h⟩
  | call c k ih =>
    obtain ⟨hr, hrl⟩ := hs c s t h
    rw [run, run, hr]
    exact ih _ hrl

/-- No run ends with such a result. -/
def Avoids (bad : α → Prop) : Interaction C R α → Prop
  | done a => ¬ bad a
  | call _ k => ∀ r, (k r).Avoids bad

/-- After a failed call it does not succeed. -/
def Heeds (fails : (c : C) → R c → Prop) (succeeds : α → Prop) : Interaction C R α → Prop
  | done _ => True
  | call c k => ∀ r, (fails c r → (k r).Avoids succeeds) ∧ (¬ fails c r → (k r).Heeds fails succeeds)

theorem run_avoids {bad : α → Prop} (handle : (c : C) → σ → R c × σ) (p : Interaction C R α) (h : p.Avoids bad)
    (s : σ) : ¬ bad (p.run handle s).1 := by
  induction p generalizing s with
  | done a => exact h
  | call c k ih => exact ih _ (h _) _

theorem run_heeds {fails : (c : C) → R c → Prop} {succeeds : α → Prop}
    (I : σ → Prop) (hst : ∀ c s, I s → ¬ fails c (handle c s).1 → I (handle c s).2) (p : Interaction C R α)
    (h : p.Heeds fails succeeds) {s : σ} (hs : I s) (he : succeeds (p.run handle s).1) : I (p.run handle s).2 := by
  induction p generalizing s with
  | done a => exact hs
  | call c k ih =>
    by_cases hf : fails c (handle c s).1
    · exact absurd he (run_avoids handle _ ((h _).1 hf) _)
    · exact ih _ ((h _).2 hf) (hst c s hs hf) he

end Interaction

end Sipi.Theory
