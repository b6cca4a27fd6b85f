import Mathlib.Data.List.Basic

/-!
# Runs of a labelled transition system

A system is a relation `step s e s'`: from the state `s` the event `e` may lead to `s'`.
-/

namespace Sipi.Theory

variable {σ ε : Type*}

/-- The events `es` lead from `s` to `t`. -/
inductive Run (step : σ → ε → σ → Prop) : σ → List ε → σ → Prop
  | nil (s : σ) : Run step s [] s
  | snoc {s t u : σ} {es : List ε} {e : ε} : Run step s es t → step t e u → Run step s (es ++ [e]) u

/-- The steps that meet a condition before them. -/
def When (cond : σ → ε → Prop) (step : σ → ε → σ → Prop) (s : σ) (e : ε) (t : σ) : Prop :=
  cond s e ∧ step s e t

variable {step : σ → ε → σ → Prop} {es : List ε}

theorem Run.history {s t : σ} (h : Run step s es t) (I : List ε → σ → Prop) (hi : I [] s)
    (hs : ∀ es t e u, Run step s es t → I es t → step t e u → I (es ++ [e]) u) : I es t := by
  induction h with
  | nil => exact hi
  | snoc hr hl ih => exact hs _ _ _ _ hr ih hl

theorem Run.invariant {s t : σ} (h : Run step s es t) (I : σ → Prop) (hi : I s)
    (hst : ∀ t e u, I t → step t e u → I u) : I t :=
  h.history (fun _ t => I t) hi fun _ t e u _ ht hs => hst t e u ht hs

theorem Run.mono {step' : σ → ε → σ → Prop} (hs : ∀ s e t, step s e t → step' s e t) {s t : σ}
    (h : Run step s es t) : Run step' s es t := by
  induction h with
  | nil => exact Run.nil _
  | snoc _ hl ih => exact ih.snoc (hs _ _ _ hl)

theorem Run.exists_first {P : σ → Prop} {s t : σ} (h : Run step s es t) (hs : ¬ P s) (ht : P t) :
    ∃ es₁ e es₂ u v, es = es₁ ++ e :: es₂ ∧ Run step s es₁ u ∧ ¬ P u ∧ step u e v ∧ P v ∧ Run step v es₂ t := by
  induction h with
  | nil => exact absurd ht hs
  | @snoc t₁ t₂ es e hrn hl ih =>
    by_cases hb : P t₁
    · obtain ⟨es₁, e₁, es₂, u, v, rfl, hu, hn, hst, hv, hr⟩ := ih hb
      exact ⟨es₁, e₁, es₂ ++ [e], u, v, by simp, hu, hn, hst, hv, hr.snoc hl⟩
    · exact ⟨es, e, [], t₁, t₂, rfl, hrn, hb, hl, ht, Run.nil _⟩

theorem Run.congr {step' : σ → ε → σ → Prop} (I : σ → Prop) {s t : σ} (hi : I s)
    (hif : ∀ t e u, I t → (step t e u ↔ step' t e u)) (hs : ∀ t e u, I t → step t e u → I u) :
    Run step s es t ↔ Run step' s es t := by
  constructor
  · intro h
    refine (h.history (fun es t => Run step' s es t ∧ I t) ⟨Run.nil s, hi⟩ ?_).1
    rintro es t e u _ ⟨hr, ht⟩ hl
    exact ⟨hr.snoc ((hif t e u ht).mp hl), hs t e u ht hl⟩
  · intro h
    refine (h.history (fun es t => Run step s es t ∧ I t) ⟨Run.nil s, hi⟩ ?_).1
    rintro es t e u _ ⟨hr, ht⟩ hl
    have hl' := (hif t e u ht).mpr hl
    exact ⟨hr.snoc hl', hs t e u ht hl'⟩

section Script

variable {α : Type*} (ok : σ → α → Prop) (next : σ → α → ε × σ)

/-- Every input is allowed when it comes. -/
def Allowed : σ → List α → Prop
  | _, [] => True
  | s, a :: as => ok s a ∧ Allowed (next s a).2 as

instance decidableAllowed [∀ s a, Decidable (ok s a)] : ∀ s as, Decidable (Allowed ok next s as)
  | _, [] => inferInstanceAs (Decidable True)
  | s, a :: as =>
    have := decidableAllowed (next s a).2 as
    inferInstanceAs (Decidable (_ ∧ _))

/-- The events that inputs cause. -/
def script : σ → List α → List ε × σ
  | s, [] => ([], s)
  | s, a :: as => ((next s a).1 :: (script (next s a).2 as).1, (script (next s a).2 as).2)

theorem Run.cons {s t u : σ} {e : ε} (he : step s e t) (h : Run step t es u) : Run step s (e :: es) u := by
  induction h with
  | nil => exact (Run.nil s).snoc he
  | snoc _ hl ih => exact ih.snoc hl

theorem run_script {ok : σ → α → Prop} {next : σ → α → ε × σ}
    (hs : ∀ s a, ok s a → step s (next s a).1 (next s a).2) {s : σ} {as : List α} (h : Allowed ok next s as) :
    Run step s (script next s as).1 (script next s as).2 := by
  induction as generalizing s with
  | nil => exact Run.nil s
  | cons a as ih =>
    obtain ⟨ha, has⟩ := h
    exact (ih has).cons (hs s a ha)

theorem script_eq_iff {τ : Type*} {next : σ → α → ε × σ} {next' : τ → α → ε × τ} {ok : σ → α → Prop}
    (R : σ → τ → Prop) (hs : ∀ s t a, R s t → ((next s a).1 = (next' t a).1 ↔ ok s a))
    (hk : ∀ s t a, R s t → ok s a → R (next s a).2 (next' t a).2) {s : σ} {t : τ} (h : R s t) (as : List α) :
    (script next s as).1 = (script next' t as).1 ↔ Allowed ok next s as := by
  induction as generalizing s t with
  | nil => exact iff_of_true rfl trivial
  | cons a as ih =>
    rw [script, script, Allowed, List.cons_eq_cons, hs s t a h]
    refine and_congr_right fun ha => ?_
    exact ih (hk s t a h ha)

end Script

section Play

variable (step : σ → ε → Option σ) (ok : σ → ε → Prop) [∀ s e, Decidable (ok s e)]

/-- Where events lead, if all are possible. -/
def play : σ → List ε → Option σ
  | s, [] => some s
  | s, e :: es => if ok s e then (step s e).bind fun t => play t es else none

theorem run_of_play {step : σ → ε → Option σ} {ok : σ → ε → Prop} [∀ s e, Decidable (ok s e)] {s t : σ}
    (h : play step ok s es = some t) : Run (When ok fun s e t => step s e = some t) s es t := by
  induction es generalizing s with
  | nil => exact Option.some.inj h ▸ Run.nil s
  | cons e es ih =>
    rw [play] at h
    split at h
    · next hok =>
      obtain ⟨u, hu, hp⟩ := Option.bind_eq_some_iff.mp h
      exact (ih hp).cons ⟨hok, hu⟩
    · cases h

end Play

end Sipi.Theory
