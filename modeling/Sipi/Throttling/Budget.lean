import Sipi.Theory.Tally
import Sipi.Throttling.Admission

/-!
# The memory budget

`src/throttling/cpp/SipiMemoryBudget.cpp`.

## Honest scope

The callback of a guard is left out.
-/

namespace Sipi.Throttling

open Sipi.Theory

/-! ### The counter -/

/-- `SIZE_MAX`. -/
def sizeMax : ℕ := 2 ^ 64 - 1

/-- `SipiMemoryBudget`, without its counter. -/
structure MemoryBudget where
  budget : ℕ
  mode : AdmissionMode

/-- `MemoryBudgetResult`. -/
structure MemoryBudgetResult where
  allowed : Bool
  overBudget : Bool
  exceedsBudgetAlone : Bool
  used : ℕ
  budget : ℕ
  deriving DecidableEq, Repr

/-- The counter if the bytes are granted. -/
def desired (bytes current : ℕ) : ℕ := if bytes ≤ sizeMax - current then current + bytes else sizeMax

/-- `try_acquire`: the answer and the counter. -/
def MemoryBudget.tryAcquire (m : MemoryBudget) (bytes current : ℕ) : MemoryBudgetResult × ℕ :=
  if bytes = 0 then (⟨true, false, false, current, m.budget⟩, current)
  else if m.budget < desired bytes current ∧ m.mode = .advanced then
    (⟨false, true, decide (m.budget < bytes), current, m.budget⟩, current)
  else
    (⟨true, decide (m.budget < desired bytes current), decide (m.budget < bytes), desired bytes current, m.budget⟩,
      desired bytes current)

/-- `release`. -/
def release (bytes current : ℕ) : ℕ :=
  if bytes = 0 then current else if bytes ≤ current then current - bytes else 0

theorem release_eq (bytes current : ℕ) : release bytes current = current - bytes := by
  unfold release
  split
  · omega
  · split <;> omega

section
variable {m : MemoryBudget} {bytes current : ℕ}

theorem desired_le (bytes current : ℕ) : desired bytes current ≤ current + bytes := by
  unfold desired
  split <;> omega

theorem tryAcquire_le (m : MemoryBudget) (bytes current : ℕ) : (m.tryAcquire bytes current).2 ≤ current + bytes := by
  unfold MemoryBudget.tryAcquire
  split
  · exact Nat.le_add_right _ _
  · split
    · exact Nat.le_add_right _ _
    · exact desired_le bytes current

theorem tryAcquire_of_refused (h : (m.tryAcquire bytes current).1.allowed = false) :
    (m.tryAcquire bytes current).2 = current := by
  unfold MemoryBudget.tryAcquire at h ⊢
  split
  · rfl
  · next hz =>
    rw [if_neg hz] at h
    split
    · rfl
    · next ho =>
      rw [if_neg ho] at h
      cases h

theorem tryAcquire_le_budget (hm : m.mode = .advanced) (h : current ≤ m.budget) :
    (m.tryAcquire bytes current).2 ≤ m.budget := by
  unfold MemoryBudget.tryAcquire
  split
  · exact h
  · split
    · exact h
    · next ho => exact not_lt.mp fun hlt => ho ⟨hlt, hm⟩

theorem tryAcquire_of_fits (h : (m.tryAcquire bytes current).1.allowed = true) (hf : current + bytes ≤ sizeMax) :
    (m.tryAcquire bytes current).2 = current + bytes := by
  unfold MemoryBudget.tryAcquire at h ⊢
  split
  · next hz => rw [hz, Nat.add_zero]
  · next hz =>
    rw [if_neg hz] at h
    split
    · next ho =>
      rw [if_pos ho] at h
      cases h
    · exact if_pos (by omega)

theorem fits_of_allowed (hm : m.mode = .advanced) (hb : m.budget < sizeMax) (hc : current ≤ m.budget)
    (h : (m.tryAcquire bytes current).1.allowed = true) : current + bytes ≤ sizeMax := by
  unfold MemoryBudget.tryAcquire at h
  split at h
  · omega
  · split at h
    · cases h
    · next ho =>
      have hle : desired bytes current ≤ m.budget := not_lt.mp fun hlt => ho ⟨hlt, hm⟩
      unfold desired at hle
      split at hle
      · omega
      · omega

end

/-! ### Guards -/

/-- Bytes that have been granted. -/
structure Grant where
  ticket : ℕ
  bytes : ℕ
  deriving DecidableEq, Repr

/-- `MemoryBudgetGuard`. -/
structure MemoryBudgetGuard where
  bound : Bool
  bytes : ℕ
  acquired : Bool
  ticket : ℕ
  deriving DecidableEq, Repr

/-- What the destructor of a guard gives back. -/
def MemoryBudgetGuard.grant (g : MemoryBudgetGuard) : Option Grant :=
  if g.acquired && g.bound then some ⟨g.ticket, g.bytes⟩ else none

/-- A guard that has been moved from. -/
def MemoryBudgetGuard.movedFrom (g : MemoryBudgetGuard) : MemoryBudgetGuard :=
  { g with acquired := false, bound := false }

@[simp] theorem grant_movedFrom (g : MemoryBudgetGuard) : g.movedFrom.grant = none := rfl

/-- The counter, and the guards at places `ι`. -/
structure Holdings (ι : Type*) where
  used : ℕ
  issued : ℕ
  inFlight : List Grant
  guards : ι → Option MemoryBudgetGuard
  released : List ℕ

/-- What can happen. -/
inductive BudgetEvent (ι : Type*) where
  | tryAcquire (bytes : ℕ)
  | construct (i : ι) (grant : Grant)
  | constructIdle (i : ι) (bytes : ℕ)
  | moveConstruct (src dst : ι)
  | moveAssign (src dst : ι)
  | destroy (i : ι)

namespace Holdings

/-- Nothing is held. -/
def new {ι : Type*} : Holdings ι := ⟨0, 0, [], fun _ => none, []⟩

/-- What a guard holds is given back. -/
def giveBack {ι : Type*} (s : Holdings ι) (g : MemoryBudgetGuard) : Holdings ι :=
  match g.grant with
  | some grant => { s with used := release grant.bytes s.used, released := s.released ++ [grant.ticket] }
  | none => s

variable {ι : Type*}

@[simp] theorem guards_giveBack (s : Holdings ι) (g : MemoryBudgetGuard) : (s.giveBack g).guards = s.guards := by
  unfold giveBack
  split <;> rfl

@[simp] theorem issued_giveBack (s : Holdings ι) (g : MemoryBudgetGuard) : (s.giveBack g).issued = s.issued := by
  unfold giveBack
  split <;> rfl

section Step
variable [DecidableEq ι]

/-- A place has this guard now, or none. -/
def put (s : Holdings ι) (i : ι) (g : Option MemoryBudgetGuard) : Holdings ι :=
  { s with guards := Function.update s.guards i g }

/-- A guard goes from one place to another. -/
def moveTo (s : Holdings ι) (src dst : ι) (g : MemoryBudgetGuard) : Holdings ι :=
  (s.put dst (some g)).put src (some g.movedFrom)

/-- One event, if it is possible. -/
def step (m : MemoryBudget) (s : Holdings ι) : BudgetEvent ι → Option (Holdings ι)
  | .tryAcquire bytes =>
    let answer := m.tryAcquire bytes s.used
    if answer.1.allowed then
      some { s with used := answer.2, issued := s.issued + 1, inFlight := ⟨s.issued, bytes⟩ :: s.inFlight }
    else some { s with used := answer.2 }
  | .construct i grant =>
    if s.guards i = none ∧ grant ∈ s.inFlight then
      some ({ s with inFlight := s.inFlight.erase grant }.put i (some ⟨true, grant.bytes, true, grant.ticket⟩))
    else none
  | .constructIdle i bytes => if s.guards i = none then some (s.put i (some ⟨true, bytes, false, 0⟩)) else none
  | .moveConstruct src dst =>
    match s.guards src, s.guards dst with
    | some g, none => some (s.moveTo src dst g)
    | _, _ => none
  | .moveAssign src dst =>
    match s.guards src, s.guards dst with
    | some g, some old => if src = dst then some s else some ((s.giveBack old).moveTo src dst g)
    | _, _ => none
  | .destroy i =>
    match s.guards i with
    | some g => some ((s.giveBack g).put i none)
    | none => none

end Step

section Weight
variable [Fintype ι]

/-- The weight of what a place holds. -/
def weightAt (w : Grant → ℕ) (g : Option MemoryBudgetGuard) : ℕ := ((g.bind MemoryBudgetGuard.grant).map w).getD 0

/-- The weight of all grants that are held. -/
def weight (s : Holdings ι) (w : Grant → ℕ) : ℕ := tally (weightAt w) s.guards + (s.inFlight.map w).sum

/-- The bytes that are held. -/
def held (s : Holdings ι) : ℕ := s.weight Grant.bytes

/-- The number of places where a grant is held. -/
def holders (s : Holdings ι) (t : ℕ) : ℕ := s.weight fun grant => if grant.ticket = t then 1 else 0

@[simp] theorem weightAt_none (w : Grant → ℕ) : weightAt w none = 0 := rfl

@[simp] theorem weightAt_movedFrom (w : Grant → ℕ) (g : MemoryBudgetGuard) : weightAt w (some g.movedFrom) = 0 := rfl

@[simp] theorem weight_giveBack (s : Holdings ι) (g : MemoryBudgetGuard) (w : Grant → ℕ) :
    (s.giveBack g).weight w = s.weight w := by
  unfold giveBack
  split <;> rfl

/-- A request is granted: one grant more. -/
structure Grants (m : MemoryBudget) (bytes : ℕ) (s s' : Holdings ι) : Prop where
  allowed : (m.tryAcquire bytes s.used).1.allowed = true
  used : s'.used = (m.tryAcquire bytes s.used).2
  weight : ∀ w, s'.weight w = s.weight w + w ⟨s.issued, bytes⟩
  issued : s'.issued = s.issued + 1
  released : s'.released = s.released

/-- A grant is given back: one grant less. -/
structure GivesBack (s s' : Holdings ι) : Prop where
  grant : ∃ grant : Grant, (∀ w, s'.weight w + w grant = s.weight w) ∧ s'.used = release grant.bytes s.used ∧
    s'.released = s.released ++ [grant.ticket]
  issued : s'.issued = s.issued

/-- Grants are moved about. -/
structure Keeps (s s' : Holdings ι) : Prop where
  weight : ∀ w, s'.weight w = s.weight w
  used : s'.used = s.used
  issued : s'.issued = s.issued
  released : s'.released = s.released

variable {s s' : Holdings ι}

theorem giveBack_cases {g : MemoryBudgetGuard} (hw : ∀ w, s'.weight w + weightAt w (some g) = s.weight w)
    (hu : s'.used = (s.giveBack g).used) (hi : s'.issued = s.issued)
    (hr : s'.released = (s.giveBack g).released) : GivesBack s s' ∨ Keeps s s' := by
  unfold giveBack at hu hr
  unfold weightAt at hw
  rw [Option.bind_some] at hw
  cases hg : g.grant with
  | none =>
    rw [hg] at hu hr hw
    exact Or.inr ⟨hw, hu, hi, hr⟩
  | some grant =>
    rw [hg] at hu hr hw
    exact Or.inl ⟨⟨grant, hw, hu, hr⟩, hi⟩

variable [DecidableEq ι]

theorem weight_put (s : Holdings ι) (w : Grant → ℕ) (i : ι) (g : Option MemoryBudgetGuard) :
    (s.put i g).weight w + weightAt w (s.guards i) = s.weight w + weightAt w g := by
  have ht := tally_update (weightAt w) s.guards i g
  show tally (weightAt w) (Function.update s.guards i g) + (s.inFlight.map w).sum + _ = _
  unfold weight
  omega

theorem weight_moveTo {src dst : ι} {g : MemoryBudgetGuard} (hne : src ≠ dst) (hs : s.guards src = some g)
    (w : Grant → ℕ) : (s.moveTo src dst g).weight w + weightAt w (s.guards dst) = s.weight w := by
  have hd := weight_put s w dst (some g)
  have hp := weight_put (s.put dst (some g)) w src (some g.movedFrom)
  have hk : (s.put dst (some g)).guards src = some g := by rw [← hs]; exact Function.update_of_ne hne _ _
  rw [hk, weightAt_movedFrom] at hp
  show ((s.put dst (some g)).put src (some g.movedFrom)).weight w + _ = _
  omega

theorem keeps_construct {i : ι} {grant : Grant} (hn : s.guards i = none) (hm : grant ∈ s.inFlight) :
    Keeps s ({ s with inFlight := s.inFlight.erase grant }.put i (some ⟨true, grant.bytes, true, grant.ticket⟩)) := by
  refine ⟨fun w => ?_, rfl, rfl, rfl⟩
  have hp := weight_put { s with inFlight := s.inFlight.erase grant } w i
    (some ⟨true, grant.bytes, true, grant.ticket⟩)
  have hw : weightAt w (some ⟨true, grant.bytes, true, grant.ticket⟩) = w grant := rfl
  have hs := List.sum_map_erase w hm
  rw [show ({ s with inFlight := s.inFlight.erase grant } : Holdings ι).guards i = none from hn, weightAt_none,
    hw] at hp
  rw [Nat.add_zero] at hp
  rw [hp]
  show tally (weightAt w) s.guards + ((s.inFlight.erase grant).map w).sum + w grant = s.weight w
  unfold weight
  omega

variable {m : MemoryBudget} {e : BudgetEvent ι}

theorem step_cases (h : s.step m e = some s') :
    (∃ bytes, e = .tryAcquire bytes ∧ Grants m bytes s s') ∨ GivesBack s s' ∨ Keeps s s' := by
  cases e with
  | tryAcquire bytes =>
    simp only [step] at h
    split at h
    · next ha =>
      refine Or.inl ⟨bytes, rfl, Option.some.inj h ▸ ⟨ha, rfl, fun w => ?_, rfl, rfl⟩⟩
      simp only [weight, List.map_cons, List.sum_cons]
      omega
    · next hr =>
      have hu := tryAcquire_of_refused (Bool.not_eq_true _ ▸ hr)
      exact Or.inr (Or.inr (Option.some.inj h ▸ ⟨fun _ => rfl, hu, rfl, rfl⟩))
  | construct i grant =>
    simp only [step] at h
    split at h
    · next hok => exact Or.inr (Or.inr (Option.some.inj h ▸ keeps_construct hok.1 hok.2))
    · cases h
  | constructIdle i bytes =>
    simp only [step] at h
    split at h
    · next hn =>
      refine Or.inr (Or.inr (Option.some.inj h ▸ ⟨fun w => ?_, rfl, rfl, rfl⟩))
      have hp := weight_put s w i (some ⟨true, bytes, false, 0⟩)
      rw [hn] at hp
      exact hp
    · cases h
  | moveConstruct src dst =>
    simp only [step] at h
    split at h
    · next g hs hd =>
      have hne : src ≠ dst := fun heq => by rw [heq, hd] at hs; cases hs
      refine Or.inr (Or.inr (Option.some.inj h ▸ ⟨fun w => ?_, rfl, rfl, rfl⟩))
      have hm := weight_moveTo hne hs w
      rwa [hd] at hm
    · cases h
  | moveAssign src dst =>
    simp only [step] at h
    split at h
    · next g old hs hd =>
      split at h
      · exact Or.inr (Or.inr (Option.some.inj h ▸ ⟨fun _ => rfl, rfl, rfl, rfl⟩))
      · next hne =>
        refine Or.inr (Option.some.inj h ▸ giveBack_cases (g := old) (fun w => ?_) rfl (by simp [moveTo, put]) rfl)
        have hm := weight_moveTo (s := s.giveBack old) hne (by rw [guards_giveBack, hs]) w
        rwa [guards_giveBack, hd, weight_giveBack] at hm
    · cases h
  | destroy i =>
    simp only [step] at h
    split at h
    · next g hg =>
      refine Or.inr (Option.some.inj h ▸ giveBack_cases (g := g) (fun w => ?_) rfl (by simp [put]) rfl)
      have hp := weight_put (s.giveBack g) w i none
      rwa [guards_giveBack, hg, weight_giveBack] at hp
    · cases h

/-! ### Runs -/

/-- A request that is granted can be added up. -/
def Fits (m : MemoryBudget) (s : Holdings ι) : BudgetEvent ι → Prop
  | .tryAcquire bytes =>
    match m.mode with
    | .advanced => m.budget < sizeMax ∨ s.used + bytes ≤ sizeMax
    | .basic => s.held + bytes ≤ sizeMax
  | _ => True

/-- A step of the counter and the guards. -/
def Step (m : MemoryBudget) (s : Holdings ι) (e : BudgetEvent ι) (s' : Holdings ι) : Prop := s.step m e = some s'

theorem used_le_held_step (hs : Step m s e s') (h : s.used ≤ s.held) : s'.used ≤ s'.held := by
  unfold held at h ⊢
  rcases step_cases hs with ⟨bytes, -, hg⟩ | ⟨⟨grant, hw, hu, -⟩, -⟩ | hk
  · rw [hg.used, hg.weight]
    exact (tryAcquire_le m bytes s.used).trans (Nat.add_le_add_right h bytes)
  · have := hw Grant.bytes
    rw [hu, release_eq]
    omega
  · rw [hk.used, hk.weight]
    exact h

theorem used_le_budget_step (hm : m.mode = .advanced) (hs : Step m s e s')
    (h : s.used ≤ m.budget) : s'.used ≤ m.budget := by
  rcases step_cases hs with ⟨bytes, -, hg⟩ | ⟨⟨grant, -, hu, -⟩, -⟩ | hk
  · rw [hg.used]
    exact tryAcquire_le_budget hm h
  · rw [hu, release_eq]
    omega
  · rw [hk.used]
    exact h

theorem used_eq_held_step (hs : Step m s e s') (hf : Fits m s e)
    (hb : m.mode = .advanced → s.used ≤ m.budget) (h : s.used = s.held) : s'.used = s'.held := by
  unfold held at h ⊢
  rcases step_cases hs with ⟨bytes, rfl, hg⟩ | ⟨⟨grant, hw, hu, -⟩, -⟩ | hk
  · have hsm : s.used + bytes ≤ sizeMax := by
      cases hm : m.mode with
      | advanced =>
        simp only [Fits, hm] at hf
        exact hf.elim (fun hlt => fits_of_allowed hm hlt (hb hm) hg.allowed) id
      | basic =>
        simp only [Fits, hm] at hf
        rw [h]
        exact hf
    rw [hg.used, hg.weight, tryAcquire_of_fits hg.allowed hsm, h]
  · have := hw Grant.bytes
    rw [hu, release_eq]
    omega
  · rw [hk.used, hk.weight]
    exact h

/-- Every grant is in one place, or given back once. -/
def OnceEach (s : Holdings ι) : Prop :=
  ∀ t, s.holders t + s.released.count t = if t < s.issued then 1 else 0

theorem onceEach_step (hs : Step m s e s') (h : s.OnceEach) : s'.OnceEach := by
  intro t
  have ht := h t
  unfold holders at ht ⊢
  rcases step_cases hs with ⟨bytes, -, hg⟩ | ⟨⟨grant, hw, -, hr⟩, hi⟩ | hk
  · rw [hg.weight, hg.released, hg.issued]
    by_cases hn : s.issued = t
    · subst hn
      simp only [lt_irrefl, if_false, if_true, Nat.lt_succ_self] at ht ⊢
      omega
    · have hif : t < s.issued + 1 ↔ t < s.issued := by omega
      simp only [hn, if_false, Nat.add_zero, hif]
      exact ht
  · have ho := hw fun grant => if grant.ticket = t then 1 else 0
    rw [hi, hr, List.count_append, List.count_singleton]
    simp only [beq_iff_eq] at ho ⊢
    omega
  · rw [hk.weight, hk.released, hk.issued]
    exact ht

omit [DecidableEq ι] in
theorem weight_new (w : Grant → ℕ) : (new : Holdings ι).weight w = 0 := by
  simp [weight, new, tally]

/-- **Budget conservation.** As long as every grant fits, the counter is the sum of what is held, and in every run
each grant is in one place or has been given back once. -/
theorem budget_conserved (m : MemoryBudget) :
    (∀ (es : List (BudgetEvent ι)) (s : Holdings ι), Run (When (Fits m) (Step m)) new es s →
      s.used = s.held ∧ (m.mode = .advanced → s.used ≤ m.budget)) ∧
    ∀ (es : List (BudgetEvent ι)) (s : Holdings ι), Run (Step m) new es s →
      s.OnceEach ∧ ((∀ i, s.guards i = none) → s.inFlight = [] → s.used = 0) := by
  constructor
  · intro es s hr
    refine hr.invariant (fun s => s.used = s.held ∧ (m.mode = .advanced → s.used ≤ m.budget)) ?_ ?_
    · exact ⟨(weight_new Grant.bytes).symm, fun _ => Nat.zero_le _⟩
    · intro s e s' ⟨heq, hle⟩ hs
      exact ⟨used_eq_held_step hs.2 hs.1 hle heq, fun hm => used_le_budget_step hm hs.2 (hle hm)⟩
  · intro es s hr
    constructor
    · refine hr.invariant OnceEach (fun t => ?_) fun _ _ _ h hs => onceEach_step hs h
      rw [holders, weight_new]
      rfl
    · intro hn he
      have hle : s.used ≤ s.held :=
        hr.invariant (fun s => s.used ≤ s.held) (Nat.zero_le _) fun _ _ _ h hs => used_le_held_step hs h
      have hh : s.held = 0 := by
        rw [held, weight, he, tally_eq_zero fun i => by rw [hn i]; rfl]
        rfl
      omega

instance (m : MemoryBudget) (s : Holdings ι) : (e : BudgetEvent ι) → Decidable (Fits m s e)
  | .tryAcquire bytes =>
    match h : m.mode with
    | .advanced => decidable_of_iff (m.budget < sizeMax ∨ s.used + bytes ≤ sizeMax) (by simp [Fits, h])
    | .basic => decidable_of_iff (s.held + bytes ≤ sizeMax) (by simp [Fits, h])
  | .construct .. | .constructIdle .. | .moveConstruct .. | .moveAssign .. | .destroy _ =>
    inferInstanceAs (Decidable True)

end Weight

theorem budget_conserved_by_move :
    ∃ s s' : Holdings (Fin 2), Run (When (Fits ⟨1000, .advanced⟩) (Step ⟨1000, .advanced⟩)) new
        [.tryAcquire 500, .construct 0 ⟨0, 500⟩, .moveConstruct 0 1] s ∧
      Run (Step ⟨1000, .advanced⟩) new
        [.tryAcquire 500, .construct 0 ⟨0, 500⟩, .moveConstruct 0 1, .destroy 1, .destroy 0] s' ∧
      s.used = 500 ∧ s.used = s.held ∧ s'.used = 0 ∧ s'.released.count 0 = 1 := by
  have hp : ((play (step ⟨1000, .advanced⟩) (Fits ⟨1000, .advanced⟩) (new : Holdings (Fin 2))
      [.tryAcquire 500, .construct 0 ⟨0, 500⟩, .moveConstruct 0 1]).map used) = some 500 := by decide +kernel
  have hp' : ((play (step ⟨1000, .advanced⟩) (fun _ _ => True) (new : Holdings (Fin 2))
      [.tryAcquire 500, .construct 0 ⟨0, 500⟩, .moveConstruct 0 1, .destroy 1, .destroy 0]).map fun s =>
        (s.issued, s.guards 0, s.guards 1, s.inFlight, s.holders 0)) = some (1, none, none, [], 0) := by
    decide +kernel
  obtain ⟨s, hs, hu⟩ := Option.map_eq_some_iff.mp hp
  obtain ⟨s', hs', hg⟩ := Option.map_eq_some_iff.mp hp'
  simp only [Prod.mk.injEq] at hg
  obtain ⟨hi, hz, hon, he, hh⟩ := hg
  have hrn := run_of_play hs
  have hr' : Run (Step ⟨1000, .advanced⟩) new _ s' := (run_of_play hs').mono fun _ _ _ h => h.2
  obtain ⟨ho, hr⟩ := (budget_conserved ⟨1000, .advanced⟩).2 _ s' hr'
  have hc := ho 0
  rw [hh, hi] at hc
  refine ⟨s, s', hrn, hr', hu, ((budget_conserved ⟨1000, .advanced⟩).1 _ s hrn).1,
    hr (Fin.forall_fin_two.mpr ⟨hz, hon⟩) he, ?_⟩
  simpa using hc

theorem budget_oversubscribed :
    ∃ s s' : Holdings (Fin 2), Run (Step ⟨sizeMax, .advanced⟩) new
        [.tryAcquire sizeMax, .construct 0 ⟨0, sizeMax⟩, .tryAcquire 1, .construct 1 ⟨1, 1⟩] s ∧
      Step ⟨sizeMax, .advanced⟩ s (.destroy 0) s' ∧
      s.inFlight = [] ∧ s.used = sizeMax ∧ s.held = sizeMax + 1 ∧ s'.used = 0 ∧ s'.held = 1 := by
  have hp : ((play (step ⟨sizeMax, .advanced⟩) (fun _ _ => True) (new : Holdings (Fin 2))
      [.tryAcquire sizeMax, .construct 0 ⟨0, sizeMax⟩, .tryAcquire 1, .construct 1 ⟨1, 1⟩]).bind fun s =>
        (s.step ⟨sizeMax, .advanced⟩ (.destroy 0)).map fun s' => (s.inFlight, s.used, s.held, s'.used, s'.held)) =
      some ([], sizeMax, sizeMax + 1, 0, 1) := by decide +kernel
  obtain ⟨s, hs, hn⟩ := Option.bind_eq_some_iff.mp hp
  obtain ⟨s', hs', hv⟩ := Option.map_eq_some_iff.mp hn
  simp only [Prod.mk.injEq] at hv
  exact ⟨s, s', (run_of_play hs).mono fun _ _ _ h => h.2, hs', hv⟩

end Holdings

end Sipi.Throttling
