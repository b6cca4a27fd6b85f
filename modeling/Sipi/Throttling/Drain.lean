import Sipi.Throttling.Basic

/-!
# The pool drains

Requests hold a permit of one semaphore while they queue for the other, and a permit that is given back goes to a
request that has not looked yet.
-/

namespace Sipi.Throttling

open Sipi.Theory

/-- The operations before it, at most. -/
def Phase.ahead : Phase → ℕ
  | .start => 13
  | .fastGlobal | .basicGlobal _ => 12
  | .dropFull => 11
  | .depthTest | .basicDepthTest _ => 10
  | .enter | .basicEnter _ | .tileBusy => 9
  | .acquireFull | .basicAcquire _ | .tileAcquire => 8
  | .waitFull => 7
  | .acquireGlobal => 6
  | .waitGlobal | .basicWait _ | .tileWait => 5
  | .admitting _ => 4
  | .admitted _ => 3
  | .exit todo _ => todo.length

/-- How many wait guards a request holds. -/
def Phase.guards : Phase → ℕ
  | .tileAcquire | .tileWait | .acquireFull | .waitFull | .acquireGlobal | .waitGlobal => 1
  | .basicAcquire _ | .basicWait _ | .admitting _ => 1
  | .exit todo _ => todo.count .dropGuard
  | _ => 0

/-- Whether a request of the kind can be there. -/
def Phase.OfKind (k : AdmissionKind) : Phase → Prop
  | .tileBusy | .tileAcquire | .tileWait => k = .tile
  | .start | .admitting _ | .admitted _ | .exit _ _ => True
  | _ => k = .full

variable {ι : Type*} [DecidableEq ι] {a : Admission} {kind : ι → AdmissionKind} {p p' : Pool ι} {i : ι}

/-! ### One event -/

/-- The request `i` has gone on, to where a request of its kind can be, and the gauge of its kind has changed by
the guards that it has made or dropped. -/
def Advances (kind : ι → AdmissionKind) (i : ι) (p p' : Pool ι) : Prop :=
  ∃ ph, p'.phase = Function.update p.phase i ph ∧ ph.ahead < (p.phase i).ahead ∧ ph.OfKind (kind i) ∧
    p'.counters.waiting = Function.update p.counters.waiting (kind i)
      (p.counters.waiting (kind i) + ph.guards - (p.phase i).guards)

/-- It may go on from `ph` to `ph'`. -/
def Next (k : AdmissionKind) (ph ph' : Phase) : Prop :=
  ph'.ahead < ph.ahead ∧ ph'.OfKind k ∧ ph'.guards = ph.guards

theorem advances_of_next {ph : Phase} (hp : p'.phase = Function.update p.phase i ph)
    (hc : ∀ k, p'.counters.waiting k = p.counters.waiting k) (hn : Next (kind i) (p.phase i) ph) :
    Advances kind i p p' := by
  refine ⟨ph, hp, hn.1, hn.2.1, ?_⟩
  rw [funext hc, hn.2.2, Nat.add_sub_cancel, Function.update_eq_self]

theorem advances_tryLane (lane : Lane) {got busy : Phase} (hg : Next (kind i) (p.phase i) got)
    (hb : Next (kind i) (p.phase i) busy) : Advances kind i p (p.tryLane lane i got busy) := by
  unfold Pool.tryLane
  split
  · exact advances_of_next rfl (fun _ => rfl) hg
  · exact advances_of_next rfl (fun _ => rfl) hb

theorem advances_park (lane : Lane) {got wait : Phase} (hg : Next (kind i) (p.phase i) got)
    (hw : Next (kind i) (p.phase i) wait) : Advances kind i p (p.park lane i got wait) := by
  refine advances_of_next rfl (fun _ => rfl) ?_
  split
  · exact hg
  · exact hw

theorem advances_claim {lane : Lane} {got : Phase} (hg : Next (kind i) (p.phase i) got)
    (h : p.claim lane i got = some p') : Advances kind i p p' := by
  obtain ⟨s, -, rfl⟩ := Option.map_eq_some_iff.mp h
  exact advances_of_next rfl (fun _ => rfl) hg

theorem advances_dropGuard {ph : Phase} (hl : ph.ahead < (p.phase i).ahead) (ho : ph.OfKind (kind i))
    (hg : (p.phase i).guards = ph.guards + 1) : Advances kind i p ((p.goto i ph).count (dropGuard (kind i))) := by
  refine ⟨ph, rfl, hl, ho, (waiting_dropGuard _ _).trans ?_⟩
  rw [hg, Nat.add_comm ph.guards, Nat.add_sub_add_right]
  rfl

attribute [local simp] Next Phase.ahead Phase.guards Phase.OfKind

theorem advances_begin (hp : p.phase i = .start) : Advances kind i p (begin a kind p i) := by
  unfold begin
  split
  · next hk => exact advances_tryLane _ (by simp [hp]) (by simp [hp, hk])
  · next hk _ => exact advances_tryLane _ (by simp [hp, hk]) (by simp [hp, hk])
  · next hk _ =>
    -- the counter of basic mode is no gauge
    obtain ⟨ph, h, hl, ho, hc⟩ : Advances kind i p (p.tryLane .full i (.basicGlobal true) (.basicGlobal false)) :=
      advances_tryLane _ (by simp [hp, hk]) (by simp [hp, hk])
    refine ⟨ph, h, hl, ho, Eq.trans ?_ hc⟩
    funext k
    cases k <;> rfl

theorem advances_runOne (hk : (p.phase i).OfKind (kind i)) (h : runOne a kind p i = some p') :
    Advances kind i p p' := by
  unfold runOne at h
  split at h
  case h_1 hp =>
    cases h
    exact advances_begin hp
  case h_2 hp =>
    cases h
    rw [hp] at hk
    refine ⟨.tileAcquire, rfl, by simp [hp], hk, (waiting_tile _ _).trans ?_⟩
    rw [show kind i = .tile from hk, hp]
    rfl
  case h_3 hp =>
    cases h
    exact advances_park _ (by simp [hp]) (by simpa [hp] using hk)
  case h_4 hp => exact advances_claim (by simp [hp]) h
  case h_5 hp =>
    cases h
    exact advances_tryLane _ (by simp [hp]) (by simpa [hp] using hk)
  case h_6 hp =>
    cases h
    exact advances_of_next rfl (fun _ => rfl) (by simpa [hp] using hk)
  case h_7 hp =>
    split at h
    · cases h
      exact advances_of_next rfl (fun k => by cases k <;> rfl) (by simp [hp])
    · cases h
      exact advances_of_next rfl (fun _ => rfl) (by simpa [hp] using hk)
  case h_8 hp =>
    cases h
    rw [hp] at hk
    refine ⟨.acquireFull, rfl, by simp [hp], hk, (waiting_full _ _).trans ?_⟩
    rw [show kind i = .full from hk, hp]
    rfl
  case h_9 hp =>
    cases h
    exact advances_park _ (by simpa [hp] using hk) (by simpa [hp] using hk)
  case h_10 hp => exact advances_claim (by simpa [hp] using hk) h
  case h_11 hp =>
    cases h
    exact advances_park _ (by simp [hp]) (by simpa [hp] using hk)
  case h_12 hp => exact advances_claim (by simp [hp]) h
  case h_13 b hp =>
    cases h
    exact advances_tryLane _ (by simp [hp]) (by simpa [hp] using hk)
  case h_14 b hp =>
    split at h
    · cases h
      exact advances_of_next rfl (fun k => by cases k <;> rfl) (by cases b <;> simp [hp, releaseIf])
    · cases h
      exact advances_of_next rfl (fun _ => rfl) (by simpa [hp] using hk)
  case h_15 b hp =>
    cases h
    rw [hp] at hk
    refine ⟨.basicAcquire b, rfl, by simp [hp], hk, (waiting_full _ _).trans ?_⟩
    rw [show kind i = .full from hk, hp]
    rfl
  case h_16 b hp =>
    cases h
    exact advances_park _ (by simp [hp]) (by simpa [hp] using hk)
  case h_17 b hp => exact advances_claim (by simp [hp]) h
  case h_18 b hp =>
    cases h
    exact advances_dropGuard (by simp [hp]) (by simp) (by simp [hp])
  case h_19 => cases h
  case h_20 lane todo answer hp =>
    cases h
    exact advances_of_next rfl (fun _ => rfl) (by simp [hp])
  case h_21 todo answer hp =>
    cases h
    exact advances_dropGuard (by simp [hp]) (by simp) (by simp [hp])
  case h_22 => cases h

theorem advances_expireOne (h : expireOne p i = some p') : Advances kind i p p' := by
  unfold expireOne at h
  split at h
  case h_4 b hp =>
    cases h
    exact advances_of_next rfl (fun k => by cases k <;> rfl) (by cases b <;> simp [hp, releaseIf])
  case h_5 => cases h
  all_goals
    next hp =>
    cases h
    exact advances_of_next rfl (fun k => by cases k <;> rfl) (by simp [hp])

theorem advances_dropOne (h : dropOne p i = some p') : Advances kind i p p' := by
  unfold dropOne at h
  split at h
  · next b hp =>
    cases h
    exact advances_of_next rfl (fun _ => rfl) (by cases b <;> simp [hp, releaseIf])
  · cases h

theorem step_advances {e : Event ι} (hk : ∀ i, (p.phase i).OfKind (kind i)) (h : step a kind p e = some p') :
    ∃ i, Advances kind i p p' := by
  cases e with
  | run i => exact ⟨i, advances_runOne (hk i) h⟩
  | expire i => exact ⟨i, advances_expireOne h⟩
  | drop i => exact ⟨i, advances_dropOne h⟩

theorem parked_of_stuck (hr : runOne a kind p i = none) (hd : dropOne p i = none) :
    (∃ answer, p.phase i = .exit [] answer) ∨
      ∃ lane, waits lane (p.phase i) = true ∧ (p.sem lane).claim i = none := by
  cases hp : p.phase i <;> simp only [runOne, dropOne, hp, Pool.claim, Option.map_eq_none_iff, reduceCtorEq] at hr hd
  case tileWait | waitGlobal | basicWait => exact Or.inr ⟨.global, rfl, hr⟩
  case waitFull => exact Or.inr ⟨.full, rfl, hr⟩
  case depthTest | basicDepthTest =>
    split at hr
    · cases hr
    · cases hr
  case exit todo answer =>
    cases todo with
    | nil => exact Or.inl ⟨answer, rfl⟩
    | cons cleanup rest => cases cleanup <;> cases hr

theorem waits_unique {lane lane' : Lane} {ph : Phase} (h : waits lane ph = true) (h' : waits lane' ph = true) :
    lane = lane' := by
  cases lane <;> cases lane' <;> cases ph <;> first | rfl | simp [waits] at h h'

theorem held_global_of_waits {lane : Lane} {ph : Phase} (h : waits lane ph = true) : held .global ph = 0 := by
  cases lane <;> cases ph <;> first | rfl | simp [waits] at h

theorem held_full_of_waits {ph : Phase} (h : waits .full ph = true) : held .full ph = 0 := by
  cases ph <;> first | rfl | simp [waits] at h

section Runs

variable [Fintype ι]

theorem nobody_waits (ha : Accounted a p) {lane : Lane} (hc : 0 < a.capacity lane)
    (hh : ∀ i, held lane (p.phase i) = 0) (hs : ∀ i, runOne a kind p i = none ∧ dropOne p i = none) (i : ι) :
    waits lane (p.phase i) = false := by
  by_contra hw
  obtain ⟨j, hj, hcl⟩ := (ha lane).exists_claim hc hh (by simpa using hw)
  rcases parked_of_stuck (hs j).1 (hs j).2 with ⟨answer, hx⟩ | ⟨lane', hl, hn⟩
  · rw [hx] at hj
    cases lane <;> cases hj
  · obtain rfl := waits_unique hj hl
    rw [hn] at hcl
    cases hcl

theorem left_of_stuck (ha : Accounted a p) (hc : ∀ lane, 0 < a.capacity lane)
    (hs : ∀ i, runOne a kind p i = none ∧ dropOne p i = none) (i : ι) : ∃ answer, p.phase i = .exit [] answer := by
  have hg : ∀ i, held .global (p.phase i) = 0 := fun i => by
    rcases parked_of_stuck (hs i).1 (hs i).2 with ⟨answer, hx⟩ | ⟨lane, hl, -⟩
    · rw [hx]
      rfl
    · exact held_global_of_waits hl
  have hwg := nobody_waits ha (hc .global) hg hs
  -- who waits now waits for the full lane, and has no permit of it
  have hf : ∀ i, held .full (p.phase i) = 0 := fun i => by
    rcases parked_of_stuck (hs i).1 (hs i).2 with ⟨answer, hx⟩ | ⟨lane, hl, -⟩
    · rw [hx]
      rfl
    · cases lane with
      | global => exact absurd hl (by simp [hwg i])
      | full => exact held_full_of_waits hl
  have hwf := nobody_waits ha (hc .full) hf hs
  rcases parked_of_stuck (hs i).1 (hs i).2 with hx | ⟨lane, hl, -⟩
  · exact hx
  · cases lane with
    | global => exact absurd hl (by simp [hwg i])
    | full => exact absurd hl (by simp [hwf i])

/-! ### Whole runs -/

/-- The wait guards that the requests of a kind hold. -/
def Pool.queued (kind : ι → AdmissionKind) (p : Pool ι) (k : AdmissionKind) : ℕ :=
  tally (fun x : AdmissionKind × Phase => if x.1 = k then x.2.guards else 0) fun i => (kind i, p.phase i)

theorem queued_update {ph : Phase} (h : p'.phase = Function.update p.phase i ph) (k : AdmissionKind) :
    p'.queued kind k + (if kind i = k then (p.phase i).guards else 0) =
      p.queued kind k + if kind i = k then ph.guards else 0 := by
  have hu : (fun j => (kind j, p'.phase j)) = Function.update (fun j => (kind j, p.phase j)) i (kind i, ph) := by
    funext j
    rw [h]
    by_cases hj : j = i
    · subst hj
      simp
    · simp [hj]
  unfold Pool.queued
  rw [hu]
  exact tally_update _ _ i (kind i, ph)

/-- Requests in their places, guards counted. -/
structure Orderly (kind : ι → AdmissionKind) (p : Pool ι) : Prop where
  ofKind : ∀ i, (p.phase i).OfKind (kind i)
  gauges : ∀ k, p.counters.waiting k = p.queued kind k

theorem Orderly.advances (h : Orderly kind p) (hs : Advances kind i p p') : Orderly kind p' := by
  obtain ⟨ph, hp, -, ho, hc⟩ := hs
  refine ⟨fun j => ?_, fun k => ?_⟩
  · rw [hp]
    by_cases hj : j = i
    · subst hj
      rwa [Function.update_self]
    · rw [Function.update_of_ne hj]
      exact h.ofKind j
  · have hq : p'.queued kind k + _ = p.queued kind k + _ := queued_update hp k
    have hk := h.gauges k
    rw [hc]
    by_cases hki : kind i = k
    · subst hki
      rw [Function.update_self]
      simp only [if_true] at hq
      omega
    · rw [Function.update_of_ne (Ne.symm hki)]
      simp only [if_neg hki] at hq
      omega

omit [DecidableEq ι] in
theorem orderly_new (a : Admission) : Orderly kind (Pool.new a : Pool ι) where
  ofKind _ := trivial
  gauges k := by
    rw [Pool.queued, tally_eq_zero fun i => by simp [Pool.new]]
    cases k <;> rfl

theorem orderly_of_run {es : List (Event ι)} (h : PoolRun a kind es p) :
    Orderly kind p ∧ es.length + tally Phase.ahead p.phase ≤ Fintype.card ι * 13 := by
  refine h.history (fun es p => Orderly kind p ∧ es.length + tally Phase.ahead p.phase ≤ Fintype.card ι * 13)
    ⟨orderly_new a, ?_⟩ fun es p e p' _ hi hs => ?_
  · simp [tally, Pool.new]
  · obtain ⟨i, ha⟩ := step_advances hi.1.ofKind hs
    refine ⟨hi.1.advances ha, ?_⟩
    obtain ⟨ph, hp, hl, -⟩ := ha
    have ht := tally_update Phase.ahead p.phase i ph
    have hb := hi.2
    rw [hp, List.length_append, List.length_singleton]
    omega

theorem Admission.new_pos {parallelism : Option ℕ} {cfg : AdmissionConfig} (h : Admission.new parallelism cfg = .ok a)
    (hp : parallelism ≠ some 0) (lane : Lane) : 0 < a.capacity lane := by
  obtain ⟨hl, -⟩ := Admission.new_eq_ok h
  cases lane with
  | full =>
    have hf : a.fullMax = (lanes a.permitsTotal cfg.tilesThreadRatio).2 := congrArg Prod.snd hl
    show 0 < a.fullMax
    rw [hf, lanes]
    split
    · exact Nat.lt_of_lt_of_le Nat.one_pos (le_max_right _ _)
    · exact Nat.lt_of_lt_of_le Nat.one_pos (le_max_right _ _)
  | global =>
    unfold Admission.new at h
    split_ifs at h <;> cases h
    · assumption
    · cases parallelism with
      | none => exact Nat.zero_lt_succ 3
      | some n => exact Nat.pos_of_ne_zero fun hn => hp (congrArg some hn)

/-- **The gauges are exact**: in both modes and in every interleaving, `tile_waiting` and `full_waiting` are the
numbers of the tiles and fulls that hold a wait guard. So a guard is never dropped at zero, where the counter would
wrap. -/
theorem waiting_of_run {es : List (Event ι)} (hrun : PoolRun a kind es p) :
    (∀ k, p.counters.waiting k = ∑ i with kind i = k, (p.phase i).guards) ∧
      ∀ i, (p.phase i).guards ≤ p.counters.waiting (kind i) := by
  have hg : ∀ k, p.counters.waiting k = ∑ i with kind i = k, (p.phase i).guards := fun k => by
    rw [(orderly_of_run hrun).1.gauges, Finset.sum_filter]
    rfl
  refine ⟨hg, fun i => ?_⟩
  rw [hg]
  exact Finset.single_le_sum (f := fun i => (p.phase i).guards) (fun _ _ => Nat.zero_le _)
    (Finset.mem_filter.mpr ⟨Finset.mem_univ i, rfl⟩)

/-- **The pool drains.** For every pool that `Admission::new` makes on a host with a processor, in both modes and in
every interleaving: a run has at most 13 events for each request; and where none can go on but by a timeout, all have
left, both semaphores are as they were made, and both gauges are zero. -/
theorem drains_of_run {parallelism : Option ℕ} {cfg : AdmissionConfig} (hnew : Admission.new parallelism cfg = .ok a)
    (hhost : parallelism ≠ some 0) {es : List (Event ι)} (hrun : PoolRun a kind es p) :
    es.length ≤ 13 * Fintype.card ι ∧
    ((∀ i, step a kind p (.run i) = none ∧ step a kind p (.drop i) = none) →
      (∀ i, ∃ answer, p.phase i = .exit [] answer) ∧ p.sem = (Pool.new a).sem ∧ ∀ k, p.counters.waiting k = 0) := by
  obtain ⟨ho, hl⟩ := orderly_of_run hrun
  have ha := accounted_of_run hrun
  refine ⟨by omega, fun hs => ?_⟩
  have hx := left_of_stuck ha (Admission.new_pos hnew hhost) hs
  refine ⟨hx, ?_, fun k => ?_⟩
  · have hrest : ∀ lane i, held lane (p.phase i) = 0 ∧ waits lane (p.phase i) = false := fun lane i => by
      obtain ⟨answer, h⟩ := hx i
      exact held_of_atRest (by rw [h]; rfl) lane
    funext lane
    rw [(ha lane).eq_new (fun i => (hrest lane i).1) fun i => (hrest lane i).2]
    cases lane <;> rfl
  · rw [ho.gauges, Pool.queued]
    refine tally_eq_zero fun i => ?_
    obtain ⟨answer, h⟩ := hx i
    simp [h]

end Runs

/-- Two workers, one for tiles, and one full waits. -/
def oneFull : Admission := ⟨2, 1, 1, 1, .advanced⟩

theorem waiting_second_full :
    ∃ p : Pool (Fin 2), PoolRun oneFull (fun _ => .full) [.run 0, .run 0, .run 1, .run 1, .run 1, .run 1] p ∧
      p.phase 1 = .waitFull ∧ p.counters.waiting .full = ∑ i with (fun _ => AdmissionKind.full) i = .full,
        (p.phase i).guards := by
  have hpl : ((play (step oneFull fun _ : Fin 2 => .full) (fun _ _ => True) (Pool.new oneFull)
      [.run 0, .run 0, .run 1, .run 1, .run 1, .run 1]).map fun p => p.phase 1) = some .waitFull := by decide +kernel
  obtain ⟨p, hp, hw⟩ := Option.map_eq_some_iff.mp hpl
  have hr : PoolRun oneFull (fun _ => .full) [.run 0, .run 0, .run 1, .run 1, .run 1, .run 1] p :=
    (run_of_play hp).mono fun _ _ _ hs => hs.2
  exact ⟨p, hr, hw, (waiting_of_run hr).1 .full⟩

theorem drains_two_fulls :
    ∃ (es : List (Event (Fin 2))) (p : Pool (Fin 2)), PoolRun oneFull (fun _ => .full) es p ∧ es.length = 15 ∧
      es.length ≤ 13 * Fintype.card (Fin 2) ∧ p.sem = (Pool.new oneFull).sem := by
  have hn : Admission.new none ⟨2, 1 / 2, 1 / 4, .advanced, 1⟩ = .ok oneFull := by
    norm_num [Admission.new, lanes, round, oneFull, Nat.floor_eq_iff]
  have hpl : ((play (step oneFull fun _ : Fin 2 => .full) (fun _ _ => True) (Pool.new oneFull)
      [.run 0, .run 0, .run 1, .run 1, .run 1, .run 1, .drop 0, .run 0, .run 0, .run 1, .run 1, .run 1, .drop 1,
        .run 1, .run 1]).map fun p => (p.phase 0, p.phase 1)) = some (.exit [] .finished, .exit [] .finished) := by
    decide +kernel
  obtain ⟨p, hp, hx⟩ := Option.map_eq_some_iff.mp hpl
  obtain ⟨h0, h1⟩ := Prod.mk.inj hx
  have hr : PoolRun oneFull (fun _ => .full) _ p := (run_of_play hp).mono fun _ _ _ hs => hs.2
  have hd := drains_of_run hn (by simp) hr
  refine ⟨_, p, hr, rfl, hd.1, (hd.2 (Fin.forall_fin_two.mpr ⟨?_, ?_⟩)).2.1⟩
  · simp [step, runOne, dropOne, h0]
  · simp [step, runOne, dropOne, h1]

end Sipi.Throttling
