import Sipi.Throttling.Admission
import Mathlib.Algebra.Order.BigOperators.Group.Finset

/-!
# The tile floor

A full takes a permit of the full lane first, then a global one.
-/

namespace Sipi.Throttling

open Sipi.Theory

/-- The permits of a lane that a request holds. -/
def held : Lane → Phase → ℕ
  | .global, .admitting _ | .global, .admitted _ => 1
  | .full, .fastGlobal | .full, .dropFull | .full, .acquireGlobal | .full, .waitGlobal => 1
  | .full, .basicGlobal held | .full, .basicDepthTest held | .full, .basicEnter held | .full, .basicAcquire held
  | .full, .basicWait held | .full, .admitting held | .full, .admitted held => held.toNat
  | lane, .exit todo _ => todo.count (.release lane)
  | _, _ => 0

/-- Whether a request is parked at a lane. -/
def waits : Lane → Phase → Bool
  | .global, .tileWait | .global, .waitGlobal | .global, .basicWait _ | .full, .waitFull => true
  | _, _ => false

/-- Not begun, or everything given back. -/
def Phase.atRest : Phase → Bool
  | .start | .exit [] _ => true
  | _ => false

theorem held_of_atRest {ph : Phase} (h : ph.atRest = true) (lane : Lane) :
    held lane ph = 0 ∧ waits lane ph = false := by
  match ph, h with
  | .start, _ => cases lane <;> exact ⟨rfl, rfl⟩
  | .exit [] _, _ => cases lane <;> exact ⟨rfl, rfl⟩

variable {ι : Type*} [DecidableEq ι]

/-! ### One operation -/

/-- `i` has gone on to `ph`. -/
structure Moved (i : ι) (ph : Phase) (p p' : Pool ι) : Prop where
  phase : p'.phase = Function.update p.phase i ph
  sem : ∀ lane, Semaphore.Moves i (p.sem lane) (p'.sem lane) (held lane (p.phase i)) (held lane ph)
    (waits lane (p.phase i)) (waits lane ph)

section Operations

variable {i : ι} {ph : Phase} {p p' : Pool ι} {lane : Lane}

theorem Moved.count (h : Moved i ph p p') (f : Counters → Counters) : Moved i ph p (p'.count f) :=
  ⟨h.phase, h.sem⟩

/-- Nothing changes at this lane. -/
def Same (lane : Lane) (ph ph' : Phase) : Prop :=
  held lane ph = held lane ph' ∧ waits lane ph = waits lane ph'

theorem moved_goto (h : ∀ lane, Same lane (p.phase i) ph) : Moved i ph p (p.goto i ph) where
  phase := rfl
  sem lane := by
    rw [← (h lane).1, ← (h lane).2]
    exact Semaphore.Moves.refl _ _ _ _

theorem moved_withSem {s : Semaphore ι}
    (hm : Semaphore.Moves i (p.sem lane) s (held lane (p.phase i)) (held lane ph) (waits lane (p.phase i))
      (waits lane ph)) (ho : ∀ l, l ≠ lane → Same l (p.phase i) ph) :
    Moved i ph p ((p.withSem lane s).goto i ph) where
  phase := rfl
  sem l := by
    by_cases hl : l = lane
    · subst hl
      simpa [Pool.withSem, Pool.goto] using hm
    · rw [← (ho l hl).1, ← (ho l hl).2]
      simpa [Pool.withSem, Pool.goto, hl] using Semaphore.Moves.refl _ _ _ _

/-- It holds one permit more of a lane. -/
def Takes (lane : Lane) (ph ph' : Phase) : Prop :=
  held lane ph' = held lane ph + 1 ∧ waits lane ph' = waits lane ph ∧ ∀ l, l ≠ lane → Same l ph ph'

theorem moved_tryLane {got busy : Phase} (hg : Takes lane (p.phase i) got) (hb : ∀ l, Same l (p.phase i) busy) :
    ∃ ph, (ph = got ∨ ph = busy) ∧ Moved i ph p (p.tryLane lane i got busy) := by
  unfold Pool.tryLane
  cases h : (p.sem lane).tryAcquire with
  | some s =>
    refine ⟨got, Or.inl rfl, moved_withSem ?_ hg.2.2⟩
    rw [hg.1, hg.2.1]
    exact Semaphore.moves_tryAcquire h _
  | none => exact ⟨busy, Or.inr rfl, moved_goto hb⟩

/-- A request begins to wait at a lane. -/
def Parks (lane : Lane) (ph ph' : Phase) : Prop :=
  held lane ph' = held lane ph ∧ waits lane ph = false ∧ waits lane ph' = true ∧ ∀ l, l ≠ lane → Same l ph ph'

theorem moved_park {got wait : Phase} (hg : Takes lane (p.phase i) got) (hw : Parks lane (p.phase i) wait) :
    ∃ ph, (ph = got ∨ ph = wait) ∧ Moved i ph p (p.park lane i got wait) := by
  unfold Pool.park
  cases h : ((p.sem lane).acquire i).2 with
  | true =>
    refine ⟨got, Or.inl rfl, moved_withSem ?_ hg.2.2⟩
    rw [hg.1, hg.2.1]
    exact Semaphore.moves_acquire_true h _
  | false =>
    refine ⟨wait, Or.inr rfl, moved_withSem ?_ hw.2.2.2⟩
    rw [hw.1, hw.2.1, hw.2.2.1]
    exact Semaphore.moves_acquire_false h

/-- A parked request gets its permit. -/
def Claims (lane : Lane) (ph ph' : Phase) : Prop :=
  held lane ph' = held lane ph + 1 ∧ waits lane ph = true ∧ waits lane ph' = false ∧ ∀ l, l ≠ lane → Same l ph ph'

theorem moved_claim {got : Phase} (hg : Claims lane (p.phase i) got) (h : p.claim lane i got = some p') :
    Moved i got p p' := by
  obtain ⟨s, hs, rfl⟩ := Option.map_eq_some_iff.mp h
  refine moved_withSem ?_ hg.2.2.2
  rw [hg.1, hg.2.1, hg.2.2.1]
  exact Semaphore.moves_claim hs

theorem moved_release (hn : Takes lane ph (p.phase i)) : Moved i ph p (p.release lane i ph) := by
  refine moved_withSem ?_ fun l hl => ⟨(hn.2.2 l hl).1.symm, (hn.2.2 l hl).2.symm⟩
  rw [hn.1, hn.2.1]
  exact Semaphore.moves_release _

/-- A parked request gives up. -/
def GivesUp (lane : Lane) (ph ph' : Phase) : Prop :=
  held lane ph' = held lane ph ∧ waits lane ph = true ∧ waits lane ph' = false ∧ ∀ l, l ≠ lane → Same l ph ph'

theorem moved_abandon (hn : GivesUp lane (p.phase i) ph) : Moved i ph p (p.abandon lane i ph) := by
  refine moved_withSem ?_ hn.2.2.2
  rw [hn.1, hn.2.1, hn.2.2.1]
  exact Semaphore.moves_cancel

end Operations

/-! ### The full lane -/

/-- The phases of a full in advanced mode. -/
def onFullLane : Phase → Bool
  | .start | .fastGlobal | .dropFull | .depthTest | .enter | .acquireFull | .waitFull | .acquireGlobal | .waitGlobal
  | .admitting true | .admitted true => true
  | .exit todo _ =>
    [[.release .global, .release .full], [.release .full, .dropGuard], [.release .full], [.dropGuard], []].contains todo
  | _ => false

theorem held_le_of_onFullLane {ph : Phase} (h : onFullLane ph = true) :
    held .global ph + (waits .global ph).toNat ≤ held .full ph := by
  unfold onFullLane at h
  split at h
  any_goals decide
  · simp only [List.contains_cons, List.contains_nil, Bool.or_false, Bool.or_eq_true, beq_iff_eq] at h
    rcases h with rfl | rfl | rfl | rfl | rfl <;> simp [held, waits]
  · cases h

theorem onFullLane_tail {c : Cleanup} {todo : List Cleanup} {answer : Answer}
    (h : onFullLane (.exit (c :: todo) answer) = true) : onFullLane (.exit todo answer) = true := by
  simp only [onFullLane, List.contains_cons, List.contains_nil, Bool.or_false, Bool.or_eq_true, beq_iff_eq,
    List.cons.injEq] at h
  rcases h with ⟨-, rfl⟩ | ⟨-, rfl⟩ | ⟨-, rfl⟩ | ⟨-, rfl⟩ | h
  any_goals rfl
  cases h

theorem forall_ne_global {P : Lane → Prop} : (∀ l, l ≠ .global → P l) ↔ P .full :=
  ⟨fun h => h .full (by decide), fun h l hl => by cases l with | global => exact absurd rfl hl | full => exact h⟩

theorem forall_ne_full {P : Lane → Prop} : (∀ l, l ≠ .full → P l) ↔ P .global :=
  ⟨fun h => h .global (by decide), fun h l hl => by cases l with | full => exact absurd rfl hl | global => exact h⟩

theorem forall_lane {P : Lane → Prop} : (∀ l, P l) ↔ P .global ∧ P .full :=
  ⟨fun h => ⟨h .global, h .full⟩, fun h l => by cases l; exacts [h.1, h.2]⟩

attribute [local simp] Takes Parks Claims GivesUp Same held waits onFullLane releaseIf forall_ne_global forall_ne_full
  forall_lane

variable {a : Admission} {kind : ι → AdmissionKind}

/-- A request moves, and a full stays on its lane. -/
def Stays (a : Admission) (kind : ι → AdmissionKind) (p p' : Pool ι) : Prop :=
  ∃ i ph, Moved i ph p p' ∧
    (a.mode = .advanced → kind i = .full → onFullLane (p.phase i) = true → onFullLane ph = true)

variable {p p' : Pool ι}

theorem stays_of_exists {i : ι} {x y : Phase} (h : ∃ ph, (ph = x ∨ ph = y) ∧ Moved i ph p p')
    (hx : a.mode = .advanced → kind i = .full → onFullLane (p.phase i) = true → onFullLane x = true)
    (hy : a.mode = .advanced → kind i = .full → onFullLane (p.phase i) = true → onFullLane y = true) :
    Stays a kind p p' := by
  obtain ⟨ph, rfl | rfl, hm⟩ := h
  · exact ⟨i, ph, hm, hx⟩
  · exact ⟨i, ph, hm, hy⟩

theorem stays_begin {i : ι} (hp : p.phase i = .start) : Stays a kind p (begin a kind p i) := by
  unfold begin
  split
  · next hk =>
    refine stays_of_exists (moved_tryLane ?_ ?_) (fun _ h => ?_) (fun _ h => ?_)
    · simp [hp]
    · simp [hp]
    all_goals rw [hk] at h; cases h
  · refine stays_of_exists (moved_tryLane ?_ ?_) (fun _ _ _ => rfl) (fun _ _ _ => rfl)
    · simp [hp]
    · simp [hp]
  · next hm =>
    have ht : ∃ ph, _ ∧ Moved i ph p (p.tryLane .full i (.basicGlobal true) (.basicGlobal false)) :=
      moved_tryLane (by simp [hp])
        (by simp [hp])
    obtain ⟨ph, -, hmv⟩ := ht
    refine ⟨i, ph, hmv.count _, fun h => ?_⟩
    rw [hm] at h
    cases h

theorem stays_goto {i : ι} {ph : Phase} (f : Counters → Counters) (hs : ∀ lane, Same lane (p.phase i) ph)
    (hl : a.mode = .advanced → kind i = .full → onFullLane (p.phase i) = true → onFullLane ph = true) :
    Stays a kind p ((p.goto i ph).count f) :=
  ⟨i, ph, (moved_goto hs).count f, hl⟩

theorem stays_runOne {i : ι} (h : runOne a kind p i = some p') : Stays a kind p p' := by
  unfold runOne at h
  split at h
  case h_1 hp => exact Option.some.inj h ▸ stays_begin hp
  case h_2 hp =>
    exact Option.some.inj h ▸ stays_goto _ (by simp [hp]) (by simp [hp])
  case h_3 hp =>
    exact Option.some.inj h ▸ stays_of_exists (moved_park (by simp [hp])
      (by simp [hp])) (by simp [hp]) (by simp [hp])
  case h_4 hp =>
    exact ⟨i, _, moved_claim (by simp [hp]) h, by simp [hp]⟩
  case h_5 hp =>
    exact Option.some.inj h ▸ stays_of_exists (moved_tryLane
      (by simp [hp]) (by simp [hp]))
      (fun _ _ _ => rfl) (fun _ _ _ => rfl)
  case h_6 hp =>
    exact Option.some.inj h ▸ ⟨i, _, moved_release (by simp [hp]),
      fun _ _ _ => rfl⟩
  case h_7 hp =>
    split at h
    · exact Option.some.inj h ▸ stays_goto _ (by simp [hp]) (fun _ _ _ => rfl)
    · exact Option.some.inj h ▸ stays_goto id (by simp [hp]) (fun _ _ _ => rfl)
  case h_8 hp =>
    exact Option.some.inj h ▸ stays_goto _ (by simp [hp]) (fun _ _ _ => rfl)
  case h_9 hp =>
    exact Option.some.inj h ▸ stays_of_exists (moved_park (by simp [hp])
      (by simp [hp])) (fun _ _ _ => rfl) (fun _ _ _ => rfl)
  case h_10 hp =>
    exact ⟨i, _, moved_claim (by simp [hp]) h, fun _ _ _ => rfl⟩
  case h_11 hp =>
    exact Option.some.inj h ▸ stays_of_exists (moved_park (by simp [hp])
      (by simp [hp])) (fun _ _ _ => rfl) (fun _ _ _ => rfl)
  case h_12 hp =>
    exact ⟨i, _, moved_claim (by simp [hp]) h, fun _ _ _ => rfl⟩
  case h_13 hp =>
    exact Option.some.inj h ▸ stays_of_exists (moved_tryLane
      (by simp [hp]) (by simp [hp]))
      (by simp [hp]) (by simp [hp])
  case h_14 b hp =>
    split at h
    · exact Option.some.inj h ▸ stays_goto _ (by cases b <;> simp [hp])
        (by simp [hp])
    · exact Option.some.inj h ▸ stays_goto id (by simp [hp]) (by simp [hp])
  case h_15 hp =>
    exact Option.some.inj h ▸ stays_goto _ (by simp [hp]) (by simp [hp])
  case h_16 hp =>
    exact Option.some.inj h ▸ stays_of_exists (moved_park (by simp [hp])
      (by simp [hp])) (by simp [hp]) (by simp [hp])
  case h_17 hp =>
    exact ⟨i, _, moved_claim (by simp [hp]) h, by simp [hp]⟩
  case h_18 b hp =>
    exact Option.some.inj h ▸ stays_goto _ (by simp [hp])
      (by cases b <;> simp [hp])
  case h_19 => cases h
  case h_20 lane todo answer hp =>
    refine Option.some.inj h ▸ ⟨i, _, moved_release ?_, fun _ _ hl => onFullLane_tail (hp ▸ hl)⟩
    cases lane <;> simp [hp]
  case h_21 hp =>
    exact Option.some.inj h ▸ stays_goto _ (by simp [hp])
      (fun _ _ hl => onFullLane_tail (hp ▸ hl))
  case h_22 => cases h

theorem stays_expireOne {i : ι} (h : expireOne p i = some p') : Stays a kind p p' := by
  unfold expireOne at h
  split at h
  case h_1 hp =>
    exact Option.some.inj h ▸ ⟨i, _, (moved_abandon
      (by simp [hp])).count _, by simp [hp]⟩
  case h_2 hp =>
    exact Option.some.inj h ▸ ⟨i, _, (moved_abandon
      (by simp [hp])).count _, fun _ _ _ => rfl⟩
  case h_3 hp =>
    exact Option.some.inj h ▸ ⟨i, _, (moved_abandon
      (by simp [hp])).count _, fun _ _ _ => rfl⟩
  case h_4 b hp =>
    refine Option.some.inj h ▸ ⟨i, _, (moved_abandon ?_).count _, by simp [hp]⟩
    cases b <;> simp [hp]
  case h_5 => cases h

theorem stays_dropOne {i : ι} (h : dropOne p i = some p') : Stays a kind p p' := by
  unfold dropOne at h
  split at h
  case h_1 b hp =>
    refine Option.some.inj h ▸ ⟨i, _, moved_goto ?_, ?_⟩
    · cases b <;> simp [hp]
    · cases b <;> simp [hp]
  case h_2 => cases h

theorem step_moved {e : Event ι} (h : step a kind p e = some p') : Stays a kind p p' := by
  cases e with
  | run i => exact stays_runOne h
  | expire i => exact stays_expireOne h
  | drop i => exact stays_dropOne h

section Runs

variable [Fintype ι]

/-- How many permits a lane has. -/
def Admission.capacity (a : Admission) : Lane → ℕ
  | .global => a.permitsTotal
  | .full => a.fullMax

/-- The permits of both lanes are accounted for. -/
def Accounted (a : Admission) (p : Pool ι) : Prop :=
  ∀ lane, (p.sem lane).Accounts (a.capacity lane) (fun i => held lane (p.phase i)) fun i => waits lane (p.phase i)

omit [DecidableEq ι] in
theorem accounted_new (a : Admission) : Accounted a (Pool.new a : Pool ι) := by
  intro lane
  cases lane <;> exact Semaphore.accounts_new _

theorem Moved.accounted {i : ι} {ph : Phase} (hm : Moved i ph p p') (h : Accounted a p) : Accounted a p' := by
  intro lane
  have hmv := (h lane).move (hm.sem lane)
  have hh : (fun j => held lane (p'.phase j)) = Function.update (fun j => held lane (p.phase j)) i (held lane ph) := by
    rw [hm.phase]
    exact Function.comp_update (held lane) p.phase i ph
  have hw : (fun j => waits lane (p'.phase j)) =
      Function.update (fun j => waits lane (p.phase j)) i (waits lane ph) := by
    rw [hm.phase]
    exact Function.comp_update (waits lane) p.phase i ph
  rw [hh, hw]
  exact hmv

theorem accounted_of_run {es : List (Event ι)} (h : PoolRun a kind es p) : Accounted a p := by
  refine Run.invariant h (Accounted a) (accounted_new a) fun t e u ht hs => ?_
  obtain ⟨i, ph, hm, -⟩ := step_moved hs
  exact hm.accounted ht

omit [Fintype ι] in
theorem onFullLane_of_run (hmd : a.mode = .advanced) {es : List (Event ι)} (h : PoolRun a kind es p) :
    ∀ i, kind i = .full → onFullLane (p.phase i) = true := by
  refine Run.invariant h (fun p => ∀ i, kind i = .full → onFullLane (p.phase i) = true) (fun _ _ => rfl)
    fun t e u ht hs => ?_
  obtain ⟨i, ph, hm, hst⟩ := step_moved hs
  intro j hj
  rw [hm.phase]
  by_cases hij : j = i
  · subst hij
    rw [Function.update_self]
    exact hst hmd hj (ht j hj)
  · rw [Function.update_of_ne hij]
    exact ht j hj

/-! ### The floor -/

/-- A permit handed over and not taken yet. -/
def reserved (p : Pool ι) (i : ι) : ℕ := if i ∈ (p.sem .global).granted then 1 else 0

/-- It holds a global permit, or queues for one. -/
def contends (p : Pool ι) (i : ι) : Bool :=
  decide (0 < held .global (p.phase i)) || waits .global (p.phase i)

theorem sum_reserved (h : Accounted a p) : ∑ i, reserved p i = (p.sem .global).granted.length := by
  have hn : (p.sem .global).granted.Nodup := (List.nodup_append.mp (h .global).nodup).2.1
  simp only [reserved]
  rw [Finset.sum_boole, Nat.cast_id, ← List.toFinset_card_of_nodup hn]
  congr 1
  ext i
  simp

theorem held_add_reserved_le (h : Accounted a p) {i : ι} (hl : onFullLane (p.phase i) = true) :
    held .global (p.phase i) + reserved p i ≤ held .full (p.phase i) := by
  have hle := held_le_of_onFullLane hl
  unfold reserved
  split
  · next hg =>
    have hw : waits .global (p.phase i) = true := ((h .global).mem i).mp (List.mem_append_right _ hg)
    rw [hw] at hle
    exact hle
  · omega

omit [DecidableEq ι] [Fintype ι] in
theorem contends_le {i : ι} (hl : onFullLane (p.phase i) = true) (hc : contends p i = true) :
    1 ≤ held .full (p.phase i) := by
  have hle := held_le_of_onFullLane hl
  simp only [contends, Bool.or_eq_true, decide_eq_true_eq] at hc
  rcases hc with hc | hc
  · omega
  · rw [hc] at hle
    simp only [Bool.toNat_true] at hle
    omega

omit [DecidableEq ι] in
theorem sum_held_full_le (h : Accounted a p) : ∑ i, held .full (p.phase i) ≤ a.fullMax := by
  have := (h .full).held_add_granted_le
  simp only [Admission.capacity] at this
  omega

omit [DecidableEq ι] in
theorem card_contending_full_le (h : Accounted a p) (hl : ∀ i, kind i = .full → onFullLane (p.phase i) = true) :
    (Finset.univ.filter fun i => kind i = .full ∧ contends p i = true).card ≤ a.fullMax := by
  refine le_trans ?_ (sum_held_full_le h)
  rw [Finset.card_eq_sum_ones, Finset.sum_filter]
  refine Finset.sum_le_sum fun i _ => ?_
  split
  · next hi => exact contends_le (hl i hi.1) hi.2
  · exact Nat.zero_le _

theorem tile_permits_ge (h : Accounted a p)
    (hl : ∀ i, kind i = .full → onFullLane (p.phase i) = true) (hb : (p.sem .global).tryAcquire = none) :
    a.permitsTotal ≤
      a.fullMax + ∑ i ∈ Finset.univ.filter (fun i => kind i = .tile), (held .global (p.phase i) + reserved p i) := by
  have ha : ∑ i, (held .global (p.phase i) + reserved p i) = a.permitsTotal := by
    rw [Finset.sum_add_distrib, sum_reserved h, Nat.add_comm]
    exact (h .global).held_add_granted_eq hb
  have hs := Finset.sum_filter_add_sum_filter_not Finset.univ (fun i => kind i = .tile)
    fun i => held .global (p.phase i) + reserved p i
  have hf : ∑ i ∈ Finset.univ.filter (fun i => ¬ kind i = .tile), (held .global (p.phase i) + reserved p i) ≤
      a.fullMax := by
    refine le_trans ?_ (sum_held_full_le h)
    rw [Finset.sum_filter]
    refine Finset.sum_le_sum fun i _ => ?_
    split
    · next hi =>
      have hk : kind i = .full := by
        cases hk : kind i with
        | tile => exact absurd hk hi
        | full => rfl
      exact held_add_reserved_le h (hl i hk)
    · exact Nat.zero_le _
  omega

/-- **The tile floor**, in advanced mode and in every interleaving: fulls hold or queue for at most `full_max`
global permits, and when a tile finds no free permit, at least `tile_min` of them are held by or reserved for
tiles. -/
theorem tileFloor {parallelism : Option ℕ} {cfg : AdmissionConfig} (hnew : Admission.new parallelism cfg = .ok a)
    (hmode : cfg.mode = .advanced) (htotal : 2 ≤ a.permitsTotal) {es : List (Event ι)} {p : Pool ι}
    (hrun : PoolRun a kind es p) :
    a.tileMin + a.fullMax = a.permitsTotal ∧
    (Finset.univ.filter fun i => kind i = .full ∧ contends p i = true).card ≤ a.fullMax ∧
    ∑ i, (held .global (p.phase i) + reserved p i) ≤ a.permitsTotal ∧
    ((p.sem .global).tryAcquire = none →
      a.tileMin ≤ ∑ i ∈ Finset.univ.filter (fun i => kind i = .tile), (held .global (p.phase i) + reserved p i)) ∧
    ((∀ i, (p.phase i).atRest = true) → p.sem .global = Semaphore.new a.permitsTotal ∧
      p.sem .full = Semaphore.new a.fullMax) := by
  obtain ⟨hln, hm⟩ := Admission.new_eq_ok hnew
  have hs : a.tileMin + a.fullMax = a.permitsTotal := by
    have := lanes_add htotal cfg.tilesThreadRatio
    rwa [← hln] at this
  have ha := accounted_of_run hrun
  have hl := onFullLane_of_run (hm.trans hmode) hrun
  refine ⟨hs, card_contending_full_le ha hl, ?_, fun hb => ?_, fun hr => ?_⟩
  · rw [Finset.sum_add_distrib, sum_reserved ha, Nat.add_comm]
    exact (ha .global).held_add_granted_le
  · have := tile_permits_ge ha hl hb
    omega
  · exact ⟨(ha .global).eq_new (fun i => (held_of_atRest (hr i) _).1) fun i => (held_of_atRest (hr i) _).2,
      (ha .full).eq_new (fun i => (held_of_atRest (hr i) _).1) fun i => (held_of_atRest (hr i) _).2⟩

end Runs

def twoWorkers : Admission := ⟨2, 1, 1, 0, .advanced⟩

def fullBetween (i : Fin 3) : AdmissionKind := if i = 1 then .full else .tile

theorem tileFloor_full_between :
    ∃ p : Pool (Fin 3), PoolRun twoWorkers fullBetween [.run 1, .run 1, .run 0, .run 2, .run 2, .run 2] p ∧
      (contends p 1 = true ∧ p.phase 2 = .tileWait ∧ (p.sem .global).tryAcquire = none) ∧
      1 ≤ ∑ i ∈ Finset.univ.filter (fun i => fullBetween i = .tile), (held .global (p.phase i) + reserved p i) := by
  have hn : Admission.new none ⟨2, 1 / 2, 1 / 4, .advanced, 0⟩ = .ok twoWorkers := by
    norm_num [Admission.new, lanes, round, twoWorkers, Nat.floor_eq_iff]
  have hpl : ((play (step twoWorkers fullBetween) (fun _ _ => True) (Pool.new twoWorkers)
      [.run 1, .run 1, .run 0, .run 2, .run 2, .run 2]).map fun p =>
        (contends p 1, p.phase 2, (p.sem .global).tryAcquire.isNone)) = some (true, .tileWait, true) := by decide +kernel
  obtain ⟨p, hp, hx⟩ := Option.map_eq_some_iff.mp hpl
  obtain ⟨hc, hw⟩ := Prod.mk.inj hx
  obtain ⟨hw, hb⟩ := Prod.mk.inj hw
  rw [Option.isNone_iff_eq_none] at hb
  have hr : PoolRun twoWorkers fullBetween _ p := (run_of_play hp).mono fun _ _ _ hs => hs.2
  exact ⟨p, hr, ⟨hc, hw, hb⟩, (tileFloor hn rfl le_rfl hr).2.2.2.1 hb⟩

end Sipi.Throttling
