import Sipi.Throttling.Admission
import Sipi.Theory.Tally

/-!
# The depth of the full queue

A full that finds no permit may wait if fewer than `max_waiting` fulls do.
-/

namespace Sipi.Throttling

open Sipi.Theory

/-- It is let in and not yet counted. -/
def entering : Phase → ℕ
  | .enter | .basicEnter _ => 1
  | _ => 0

/-- Whether the load of the gauge is next. -/
def testsDepth : Phase → Bool
  | .depthTest | .basicDepthTest _ => true
  | _ => false

/-! ### One operation -/

variable {ι : Type*}

section
variable [DecidableEq ι] {i : ι} {p p' : Pool ι}

/-- `i` moves, and the gauge does not grow. -/
def Quiet (i : ι) (p p' : Pool ι) : Prop :=
  ∃ ph, p'.phase = Function.update p.phase i ph ∧
    p'.counters.fullWaiting + entering ph ≤ p.counters.fullWaiting + entering (p.phase i)

theorem quiet_of_counters {ph : Phase} (hp : p'.phase = Function.update p.phase i ph)
    (hc : p'.counters.fullWaiting ≤ p.counters.fullWaiting) (hph : entering ph = 0) : Quiet i p p' :=
  ⟨ph, hp, by omega⟩

theorem quiet_tryLane (p : Pool ι) (lane : Lane) {got busy : Phase} (hg : entering got = 0)
    (hb : entering busy = 0) : Quiet i p (p.tryLane lane i got busy) := by
  unfold Pool.tryLane
  split
  · exact quiet_of_counters rfl le_rfl hg
  · exact quiet_of_counters rfl le_rfl hb

theorem quiet_park (p : Pool ι) (lane : Lane) {got wait : Phase} (hg : entering got = 0)
    (hw : entering wait = 0) : Quiet i p (p.park lane i got wait) := by
  refine quiet_of_counters rfl le_rfl ?_
  split
  · exact hg
  · exact hw

theorem quiet_claim {lane : Lane} {got : Phase} (hg : entering got = 0)
    (h : p.claim lane i got = some p') : Quiet i p p' := by
  obtain ⟨s, -, rfl⟩ := Option.map_eq_some_iff.mp h
  exact quiet_of_counters rfl le_rfl hg

theorem quiet_count (h : Quiet i p p') (f : Counters → Counters)
    (hf : (f p'.counters).fullWaiting ≤ p'.counters.fullWaiting) : Quiet i p (p'.count f) := by
  obtain ⟨ph, hp, hle⟩ := h
  exact ⟨ph, hp, le_trans (Nat.add_le_add_right hf _) hle⟩

theorem fullWaiting_dropGuard_le (kind : AdmissionKind) (c : Counters) :
    (dropGuard kind c).fullWaiting ≤ c.fullWaiting := by
  cases kind with
  | tile => exact le_rfl
  | full => exact Nat.sub_le _ _

variable {a : Admission} {kind : ι → AdmissionKind}

theorem quiet_begin (p : Pool ι) (i : ι) : Quiet i p (begin a kind p i) := by
  unfold begin
  split
  · exact quiet_tryLane p .global rfl rfl
  · exact quiet_tryLane p .full rfl rfl
  · exact quiet_count (quiet_tryLane p .full rfl rfl) _ le_rfl

/-- A full is let in. -/
def LetsIn (a : Admission) (i : ι) (p p' : Pool ι) : Prop :=
  testsDepth (p.phase i) = true ∧ a.queueFull p.counters = false ∧
    ∃ ph, p'.phase = Function.update p.phase i ph ∧ entering ph = 1 ∧ p'.counters = p.counters

theorem runOne_cases (h : runOne a kind p i = some p') : LetsIn a i p p' ∨ Quiet i p p' := by
  unfold runOne at h
  split at h
  case h_1 => exact Or.inr (Option.some.inj h ▸ quiet_begin p i)
  case h_7 hp | h_14 hp =>
    split at h
    · exact Or.inr (Option.some.inj h ▸ quiet_of_counters rfl le_rfl rfl)
    · next hq => exact Or.inl (Option.some.inj h ▸ ⟨by rw [hp]; rfl, by simpa using hq, _, rfl, rfl, rfl⟩)
  case h_8 hp | h_15 hp =>
    -- a full that is entering is counted
    refine Or.inr (Option.some.inj h ▸ ⟨_, rfl, ?_⟩)
    rw [hp]
    exact le_rfl
  case h_4 | h_10 | h_12 | h_17 => exact Or.inr (quiet_claim rfl h)
  case h_3 | h_9 | h_11 | h_16 => exact Or.inr (Option.some.inj h ▸ quiet_park p _ rfl rfl)
  case h_5 | h_13 => exact Or.inr (Option.some.inj h ▸ quiet_tryLane p _ rfl rfl)
  case h_18 | h_21 =>
    exact Or.inr (Option.some.inj h ▸ quiet_of_counters rfl (fullWaiting_dropGuard_le _ _) rfl)
  case h_19 | h_22 => cases h
  all_goals exact Or.inr (Option.some.inj h ▸ quiet_of_counters rfl le_rfl rfl)

theorem quiet_expireOne (h : expireOne p i = some p') : Quiet i p p' := by
  unfold expireOne at h
  split at h
  case h_5 => cases h
  all_goals exact Option.some.inj h ▸ quiet_of_counters rfl le_rfl rfl

theorem quiet_dropOne (h : dropOne p i = some p') : Quiet i p p' := by
  unfold dropOne at h
  split at h
  · exact Option.some.inj h ▸ quiet_of_counters rfl le_rfl rfl
  · cases h

end

/-! ### The crowd along a run -/

variable [Fintype ι]

/-- The fulls that are entering. -/
def Pool.entrants (p : Pool ι) : ℕ := tally entering p.phase

/-- The fulls counted, and those entering. -/
def Pool.crowd (p : Pool ι) : ℕ := p.counters.fullWaiting + p.entrants

/-- A full that is let in finds room. -/
def LeavesRoom (a : Admission) (p : Pool ι) : Event ι → Prop
  | .run i => testsDepth (p.phase i) = true → a.queueFull p.counters = false → p.crowd < a.maxWaiting
  | .expire _ | .drop _ => True

instance (a : Admission) (p : Pool ι) : (e : Event ι) → Decidable (LeavesRoom a p e)
  | .run _ => inferInstanceAs (Decidable (_ → _ → _))
  | .expire _ | .drop _ => inferInstanceAs (Decidable True)

theorem crowd_new (a : Admission) : (Pool.new a : Pool ι).crowd = 0 := by
  simp [Pool.crowd, Pool.entrants, Pool.new, tally, entering]

variable [DecidableEq ι] {a : Admission} {kind : ι → AdmissionKind} {p p' : Pool ι} {i : ι}

theorem entrants_update {ph : Phase} (h : p'.phase = Function.update p.phase i ph) :
    p'.entrants + entering (p.phase i) = p.entrants + entering ph := by
  unfold Pool.entrants
  rw [h]
  exact tally_update entering p.phase i ph

theorem Quiet.crowd_le (h : Quiet i p p') : p'.crowd ≤ p.crowd := by
  obtain ⟨ph, hp, hle⟩ := h
  have := entrants_update hp
  unfold Pool.crowd
  omega

theorem entering_of_testsDepth {ph : Phase} (h : testsDepth ph = true) : entering ph = 0 := by
  unfold testsDepth at h
  split at h
  · rfl
  · rfl
  · cases h

theorem LetsIn.crowd_eq (h : LetsIn a i p p') : p'.crowd = p.crowd + 1 := by
  obtain ⟨ht, -, ph, hp, hph, hc⟩ := h
  have he := entrants_update hp
  rw [entering_of_testsDepth ht, hph] at he
  unfold Pool.crowd
  rw [hc]
  omega

theorem crowd_step {e : Event ι} (h : step a kind p e = some p') :
    p'.crowd ≤ p.crowd ∨
      ∃ i, e = .run i ∧ testsDepth (p.phase i) = true ∧ a.queueFull p.counters = false ∧ p'.crowd = p.crowd + 1 := by
  cases e with
  | run i =>
    rcases runOne_cases h with hin | hq
    · exact Or.inr ⟨i, rfl, hin.1, hin.2.1, hin.crowd_eq⟩
    · exact Or.inl hq.crowd_le
  | expire i => exact Or.inl (quiet_expireOne h).crowd_le
  | drop i => exact Or.inl (quiet_dropOne h).crowd_le

theorem crowd_le_of_step {e : Event ι} (h : step a kind p e = some p') (hr : LeavesRoom a p e)
    (hle : p.crowd ≤ a.maxWaiting) : p'.crowd ≤ a.maxWaiting := by
  rcases crowd_step h with hl | ⟨i, rfl, ht, ho, hm⟩
  · exact hl.trans hle
  · have := hr ht ho
    omega

/-- **The bound**: no more than `max_waiting` fulls wait, in every run in which every full that
is let in finds room for itself and for those that are entering. -/
theorem fullWaiting_le_of_run {es : List (Event ι)} {p : Pool ι}
    (hrun : Run (When (LeavesRoom a) fun p e p' => step a kind p e = some p') (Pool.new a) es p) :
    p.counters.fullWaiting ≤ a.maxWaiting := by
  have hc : p.crowd ≤ a.maxWaiting :=
    hrun.invariant (fun p => p.crowd ≤ a.maxWaiting) ((crowd_new a).trans_le (Nat.zero_le _))
      fun _ _ _ hle hs => crowd_le_of_step hs.2 hs.1 hle
  exact (Nat.le_add_right _ _).trans hc

def oneWaits (mode : AdmissionMode) : Admission := ⟨1, 0, 1, 1, mode⟩

theorem fullWaiting_le_one :
    ∃ p : Pool (Fin 2), Run (When (LeavesRoom (oneWaits .advanced)) fun p e p' =>
        step (oneWaits .advanced) (fun _ => .full) p e = some p') (Pool.new (oneWaits .advanced))
        [.run 0, .run 0, .run 1, .run 1, .run 1] p ∧
      p.counters.fullWaiting = 1 ∧ p.counters.fullWaiting ≤ (oneWaits .advanced).maxWaiting := by
  have hpl : ((play (step (oneWaits .advanced) fun _ : Fin 2 => .full) (LeavesRoom (oneWaits .advanced))
      (Pool.new (oneWaits .advanced)) [.run 0, .run 0, .run 1, .run 1, .run 1]).map fun p =>
        p.counters.fullWaiting) = some 1 := by decide +kernel
  obtain ⟨p, hp, ho⟩ := Option.map_eq_some_iff.mp hpl
  exact ⟨p, run_of_play hp, ho, fullWaiting_le_of_run (run_of_play hp)⟩

theorem two_fulls_wait : (∃ p : Pool (Fin 3), PoolRun (oneWaits .advanced) (fun _ => .full)
        [.run 0, .run 0, .run 1, .run 1, .run 2, .run 2, .run 1, .run 2] p ∧
      (oneWaits .advanced).maxWaiting < p.counters.fullWaiting) ∧
    ∃ p : Pool (Fin 3), PoolRun (oneWaits .basic) (fun _ => .full)
        [.run 0, .run 0, .run 1, .run 1, .run 1, .run 2, .run 2, .run 2, .run 1, .run 2] p ∧
      (oneWaits .basic).maxWaiting < p.counters.fullWaiting := by
  have hr : ∀ {mode : AdmissionMode} {es : List (Event (Fin 3))},
      (play (step (oneWaits mode) fun _ => .full) (fun _ _ => True) (Pool.new (oneWaits mode)) es).map
        (fun p => p.counters.fullWaiting) = some 2 →
      ∃ p, PoolRun (oneWaits mode) (fun _ => .full) es p ∧ (oneWaits mode).maxWaiting < p.counters.fullWaiting := by
    intro mode es h
    obtain ⟨p, hp, ht⟩ := Option.map_eq_some_iff.mp h
    exact ⟨p, (run_of_play hp).mono fun _ _ _ hs => hs.2, ht ▸ Nat.one_lt_two⟩
  exact ⟨hr (by decide +kernel), hr (by decide +kernel)⟩

end Sipi.Throttling
