import Sipi.Throttling.Floor

/-!
# Basic mode

In basic mode the full lane of `Admission` is for counting only.
-/

namespace Sipi.Throttling

open Sipi.Theory

/-! ### The pool without a full lane -/

/-- What is still to be given back. -/
inductive PlainCleanup where
  | release
  | dropGuard
  deriving DecidableEq, Repr

/-- Where a request of the plain pool is. -/
inductive PlainPhase where
  | start
  | depthTest
  | enter
  | acquire
  | wait
  | admitting
  | admitted
  | exit (todo : List PlainCleanup) (answer : Answer)
  deriving DecidableEq, Repr

/-- A pool with one semaphore. -/
structure PlainPool (ι : Type*) where
  sem : Semaphore ι
  phase : ι → PlainPhase
  waiting : AdmissionKind → ℕ

variable {ι : Type*}

namespace PlainPool

variable [DecidableEq ι]

/-- The request `i` goes on to `ph`. -/
def goto (q : PlainPool ι) (i : ι) (ph : PlainPhase) : PlainPool ι :=
  { q with phase := Function.update q.phase i ph }

/-- The semaphore is now `s`. -/
def withSem (q : PlainPool ι) (s : Semaphore ι) : PlainPool ι := { q with sem := s }

/-- Change a waiting gauge. -/
def gauge (q : PlainPool ι) (kind : AdmissionKind) (f : ℕ → ℕ) : PlainPool ι :=
  { q with waiting := Function.update q.waiting kind (f (q.waiting kind)) }

/-- A pool with no request begun. -/
def new (permitsTotal : ℕ) : PlainPool ι := ⟨Semaphore.new permitsTotal, fun _ => .start, fun _ => 0⟩

variable (maxWaiting : ℕ) (kind : ι → AdmissionKind)

/-- The next operation of the request `i`. -/
def runOne (q : PlainPool ι) (i : ι) : Option (PlainPool ι) :=
  match q.phase i with
  | .start =>
    match q.sem.tryAcquire with
    | some s => some ((q.withSem s).goto i .admitted)
    | none => some (q.goto i (match kind i with | .tile => .enter | .full => .depthTest))
  | .depthTest =>
    if maxWaiting = 0 ∨ maxWaiting ≤ q.waiting .full then some (q.goto i (.exit [] .shed))
    else some (q.goto i .enter)
  | .enter => some ((q.goto i .acquire).gauge (kind i) (· + 1))
  | .acquire => some ((q.withSem (q.sem.acquire i).1).goto i (if (q.sem.acquire i).2 then .admitting else .wait))
  | .wait => (q.sem.claim i).map fun s => (q.withSem s).goto i .admitting
  | .admitting => some ((q.goto i .admitted).gauge (kind i) (· - 1))
  | .admitted => none
  | .exit (.release :: todo) answer => some ((q.withSem q.sem.release).goto i (.exit todo answer))
  | .exit (.dropGuard :: todo) answer => some ((q.goto i (.exit todo answer)).gauge (kind i) (· - 1))
  | .exit [] _ => none

/-- The timeout of `i`, while it is parked. -/
def expireOne (q : PlainPool ι) (i : ι) : Option (PlainPool ι) :=
  match q.phase i with
  | .wait => some ((q.withSem (q.sem.cancel i)).goto i (.exit [.dropGuard] .timedOut))
  | _ => none

/-- The end of a dispatch. -/
def dropOne (q : PlainPool ι) (i : ι) : Option (PlainPool ι) :=
  match q.phase i with
  | .admitted => some (q.goto i (.exit [.release] .finished))
  | _ => none

/-- One event. -/
def step (q : PlainPool ι) : Event ι → Option (PlainPool ι)
  | .run i => runOne maxWaiting kind q i
  | .expire i => expireOne q i
  | .drop i => dropOne q i

end PlainPool

/-! ### What is left without the full lane -/

/-- Without the permit of the full lane. -/
def Cleanup.plain : Cleanup → Option PlainCleanup
  | .release .global => some .release
  | .release .full => none
  | .dropGuard => some .dropGuard

/-- Where a request is, without the full lane. -/
def Phase.plain : Phase → PlainPhase
  | .start | .basicGlobal _ => .start
  | .basicDepthTest _ => .depthTest
  | .tileBusy | .basicEnter _ => .enter
  | .tileAcquire | .basicAcquire _ => .acquire
  | .tileWait | .basicWait _ => .wait
  | .admitting _ => .admitting
  | .admitted _ => .admitted
  | .exit todo answer => .exit (todo.filterMap Cleanup.plain) answer
  -- the phases of advanced mode
  | .fastGlobal | .dropFull | .depthTest | .enter | .acquireFull | .waitFull | .acquireGlobal | .waitGlobal => .start

/-- The waiting gauges. -/
def Counters.waiting (c : Counters) : AdmissionKind → ℕ
  | .tile => c.tileWaiting
  | .full => c.fullWaiting

/-- The pool without its full lane. -/
def Pool.plain (p : Pool ι) : PlainPool ι := ⟨p.sem .global, fun i => (p.phase i).plain, p.counters.waiting⟩

section
variable (p : Pool ι) (i : ι)

@[simp] theorem plain_withSem_global (s : Semaphore ι) : (p.withSem .global s).plain = p.plain.withSem s := by
  simp [Pool.plain, Pool.withSem, PlainPool.withSem]

@[simp] theorem plain_withSem_full (s : Semaphore ι) : (p.withSem .full s).plain = p.plain := by
  simp [Pool.plain, Pool.withSem]

theorem plain_count (f : Counters → Counters) :
    (p.count f).plain = { p.plain with waiting := (f p.counters).waiting } :=
  rfl

theorem plain_count_of_waiting {f : Counters → Counters} (h : (f p.counters).waiting = p.counters.waiting) :
    (p.count f).plain = p.plain := by
  rw [plain_count, h]
  rfl

theorem plain_count_gauge {f : Counters → Counters} {k : AdmissionKind} {g : ℕ → ℕ}
    (h : (f p.counters).waiting = Function.update p.counters.waiting k (g (p.counters.waiting k))) :
    (p.count f).plain = p.plain.gauge k g := by
  rw [plain_count, h]
  rfl

@[simp] theorem plain_phase : p.plain.phase i = (p.phase i).plain := rfl

@[simp] theorem plain_sem : p.plain.sem = p.sem .global := rfl

@[simp] theorem plain_waiting : p.plain.waiting = p.counters.waiting := rfl

variable [DecidableEq ι]

@[simp] theorem plain_goto (ph : Phase) : (p.goto i ph).plain = p.plain.goto i ph.plain := by
  simp [Pool.plain, Pool.goto, PlainPool.goto, ← Function.comp_def, Function.comp_update]

theorem plain_park (got wait : Phase) :
    (p.park .global i got wait).plain = (p.plain.withSem (((p.sem .global).acquire i).1)).goto i
      (if ((p.sem .global).acquire i).2 then got.plain else wait.plain) := by
  rw [Pool.park, plain_goto, plain_withSem_global, apply_ite Phase.plain]

end

/-- Where a request can be in basic mode. -/
def InBasic (kind : AdmissionKind) : Phase → Prop
  | .start | .admitting _ | .admitted _ => True
  | .tileBusy | .tileAcquire | .tileWait => kind = .tile
  | .basicGlobal _ | .basicDepthTest _ | .basicEnter _ | .basicAcquire _ | .basicWait _ => kind = .full
  | .exit todo _ => ∃ own held, todo = own ++ releaseIf held ∧ .release .full ∉ own
  | _ => False

@[simp] theorem filterMap_plain_releaseIf (held : Bool) : (releaseIf held).filterMap Cleanup.plain = [] := by
  cases held <;> rfl

variable {todo : List Cleanup} {answer : Answer}

theorem inBasic_tail {kind : AdmissionKind} {c : Cleanup}
    (h : InBasic kind (.exit (c :: todo) answer)) : InBasic kind (.exit todo answer) := by
  obtain ⟨own, held, heq, ho⟩ := h
  cases own with
  | nil =>
    cases held with
    | false => cases heq
    | true =>
      obtain ⟨-, rfl⟩ := List.cons.inj heq
      exact ⟨[], false, rfl, List.not_mem_nil⟩
  | cons c' own =>
    obtain ⟨-, rfl⟩ := List.cons.inj heq
    exact ⟨own, held, rfl, fun hm => ho (List.mem_cons_of_mem _ hm)⟩

/-! ### One event -/

section Steps
variable [DecidableEq ι] {a : Admission} {kind : ι → AdmissionKind} {p p' : Pool ι} {i : ι}

/-- The next operation is one on the full lane. -/
def Hidden (kind : AdmissionKind) : Phase → Prop
  | .start => kind = .full
  | .exit (.release .full :: _) _ => True
  | _ => False

/-- `i` has moved, and so has the plain pool. -/
def Follows (kind : ι → AdmissionKind) (i : ι) (p p' : Pool ι) (q : Option (PlainPool ι)) : Prop :=
  (∃ ph, p'.phase = Function.update p.phase i ph ∧ InBasic (kind i) ph) ∧
    (p'.plain = p.plain ∧ Hidden (kind i) (p.phase i) ∨ q = some p'.plain)

theorem waiting_tile (c : Counters) (n : ℕ) :
    ({ c with tileWaiting := n } : Counters).waiting = Function.update c.waiting .tile n := by
  funext k
  cases k <;> simp [Counters.waiting]

theorem waiting_full (c : Counters) (n : ℕ) :
    ({ c with fullWaiting := n } : Counters).waiting = Function.update c.waiting .full n := by
  funext k
  cases k <;> simp [Counters.waiting]

theorem waiting_dropGuard (k : AdmissionKind) (c : Counters) :
    (dropGuard k c).waiting = Function.update c.waiting k (c.waiting k - 1) := by
  cases k
  · exact waiting_tile c _
  · exact waiting_full c _

attribute [local simp] Phase.plain PlainPool.runOne PlainPool.expireOne PlainPool.dropOne InBasic Cleanup.plain Hidden

theorem goto_eq_self {q : PlainPool ι} {ph : PlainPhase} (h : q.phase i = ph) : q.goto i ph = q := by
  subst h
  simp [PlainPool.goto]

theorem plain_begin (hm : a.mode = .basic) (hp : p.phase i = .start) :
    Follows kind i p (begin a kind p i) (PlainPool.runOne a.maxWaiting kind p.plain i) := by
  unfold begin
  cases hk : kind i with
  | tile =>
    simp only [Pool.tryLane]
    cases hs : (p.sem .global).tryAcquire with
    | some s =>
      refine ⟨⟨.admitted false, rfl, by simp⟩, Or.inr ?_⟩
      simp [hp, hs]
    | none =>
      refine ⟨⟨.tileBusy, rfl, by simp [hk]⟩, Or.inr ?_⟩
      simp [hp, hs, hk]
  | full =>
    simp only [hm]
    have hst : p.plain.goto i .start = p.plain := goto_eq_self (by simp [hp])
    rw [Follows, plain_count_of_waiting _ rfl]
    have hh : Hidden (kind i) (p.phase i) := hp ▸ hk
    unfold Pool.tryLane
    split
    · exact ⟨⟨.basicGlobal true, rfl, hk⟩, Or.inl ⟨by simp [hst], hh⟩⟩
    · exact ⟨⟨.basicGlobal false, rfl, hk⟩, Or.inl ⟨by simp [hst], hh⟩⟩

theorem plain_exit {c : Cleanup} (hin : InBasic (kind i) (p.phase i))
    (hp : p.phase i = .exit (c :: todo) answer) (h : runOne a kind p i = some p') :
    Follows kind i p p' (PlainPool.runOne a.maxWaiting kind p.plain i) := by
  have ht : InBasic (kind i) (.exit todo answer) := inBasic_tail (hp ▸ hin)
  cases c with
  | dropGuard =>
    simp only [runOne, hp, Option.some.injEq] at h
    obtain rfl := h
    refine ⟨⟨.exit todo answer, rfl, ht⟩, Or.inr ?_⟩
    rw [plain_count_gauge _ (g := (· - 1)) (waiting_dropGuard (kind i) _), plain_goto]
    simp [hp]
  | release lane =>
    simp only [runOne, hp, Option.some.injEq, Pool.release] at h
    obtain rfl := h
    refine ⟨⟨.exit todo answer, rfl, ht⟩, ?_⟩
    cases lane with
    | global =>
      refine Or.inr ?_
      simp [hp]
    | full =>
      refine Or.inl ⟨?_, by rw [hp]; trivial⟩
      simp only [plain_goto, plain_withSem_full]
      exact goto_eq_self (by simp [hp, List.filterMap_cons])

theorem plain_runOne (hm : a.mode = .basic) (hin : InBasic (kind i) (p.phase i)) (h : runOne a kind p i = some p') :
    Follows kind i p p' (PlainPool.runOne a.maxWaiting kind p.plain i) := by
  cases hp : p.phase i with
  | start =>
    simp only [runOne, hp, Option.some.injEq] at h
    exact h ▸ plain_begin hm hp
  | tileBusy =>
    have hk : kind i = .tile := by simpa [hp] using hin
    simp only [runOne, hp, Option.some.injEq] at h
    obtain rfl := h
    refine ⟨⟨.tileAcquire, rfl, hk⟩, Or.inr ?_⟩
    rw [plain_count_gauge (g := (· + 1)) _ (waiting_tile _ _), plain_goto]
    simp [hp, hk]
  | tileAcquire =>
    have hk : kind i = .tile := by simpa [hp] using hin
    simp only [runOne, hp, Option.some.injEq] at h
    obtain rfl := h
    refine ⟨⟨_, rfl, by split; exacts [trivial, hk]⟩, Or.inr ?_⟩
    rw [plain_park]
    cases hg : ((p.sem .global).acquire i).2 <;> simp [hp, hg]
  | tileWait =>
    simp only [runOne, hp] at h
    obtain ⟨s, hs, rfl⟩ := Option.map_eq_some_iff.mp h
    refine ⟨⟨.admitting false, rfl, trivial⟩, Or.inr ?_⟩
    simp [hp, hs]
  | basicGlobal held =>
    have hk : kind i = .full := by simpa [hp] using hin
    simp only [runOne, hp, Option.some.injEq, Pool.tryLane] at h
    cases hs : (p.sem .global).tryAcquire with
    | some s =>
      obtain rfl := hs ▸ h
      refine ⟨⟨.admitted held, rfl, trivial⟩, Or.inr ?_⟩
      simp [hp, hs]
    | none =>
      obtain rfl := hs ▸ h
      refine ⟨⟨.basicDepthTest held, rfl, hk⟩, Or.inr ?_⟩
      simp [hp, hs, hk]
  | basicDepthTest held =>
    have hk : kind i = .full := by simpa [hp] using hin
    have ht : a.queueFull p.counters = true ↔ a.maxWaiting = 0 ∨ a.maxWaiting ≤ p.counters.waiting .full := by
      simp [Admission.queueFull, Counters.waiting]
    by_cases hf : a.queueFull p.counters = true
    · obtain rfl : _ = p' := by simpa [runOne, hp, hf] using h
      refine ⟨⟨.exit (releaseIf held) .shed, rfl, [], held, rfl, List.not_mem_nil⟩, Or.inr ?_⟩
      rw [plain_count_of_waiting _ rfl, plain_goto]
      simp [hp, ht.mp hf]
    · obtain rfl : _ = p' := by simpa [runOne, hp, hf] using h
      refine ⟨⟨.basicEnter held, rfl, hk⟩, Or.inr ?_⟩
      simp only [PlainPool.runOne, plain_phase, hp, Phase.plain, plain_waiting, plain_goto]
      exact if_neg (mt ht.mpr hf)
  | basicEnter held =>
    have hk : kind i = .full := by simpa [hp] using hin
    simp only [runOne, hp, Option.some.injEq] at h
    obtain rfl := h
    refine ⟨⟨.basicAcquire held, rfl, hk⟩, Or.inr ?_⟩
    rw [plain_count_gauge _ (g := (· + 1)) (waiting_full _ _), plain_goto]
    simp [hp, hk]
  | basicAcquire held =>
    have hk : kind i = .full := by simpa [hp] using hin
    simp only [runOne, hp, Option.some.injEq] at h
    obtain rfl := h
    refine ⟨⟨_, rfl, by split; exacts [trivial, hk]⟩, Or.inr ?_⟩
    rw [plain_park]
    cases hg : ((p.sem .global).acquire i).2 <;> simp [hp, hg]
  | basicWait held =>
    simp only [runOne, hp] at h
    obtain ⟨s, hs, rfl⟩ := Option.map_eq_some_iff.mp h
    refine ⟨⟨.admitting held, rfl, trivial⟩, Or.inr ?_⟩
    simp [hp, hs]
  | admitting held =>
    simp only [runOne, hp, Option.some.injEq] at h
    obtain rfl := h
    refine ⟨⟨.admitted held, rfl, trivial⟩, Or.inr ?_⟩
    rw [plain_count_gauge _ (g := (· - 1)) (waiting_dropGuard (kind i) _), plain_goto]
    simp [hp]
  | admitted held => simp [runOne, hp] at h
  | exit todo answer =>
    cases todo with
    | nil => simp [runOne, hp] at h
    | cons c todo => exact plain_exit hin hp h
  | _ => simp [hp] at hin

theorem plain_expireOne (hin : InBasic (kind i) (p.phase i)) (h : expireOne p i = some p') :
    (∃ ph, p'.phase = Function.update p.phase i ph ∧ InBasic (kind i) ph) ∧
      PlainPool.expireOne p.plain i = some p'.plain := by
  cases hp : p.phase i with
  | tileWait =>
    simp only [expireOne, hp, Option.some.injEq, Pool.abandon] at h
    obtain rfl := h
    refine ⟨⟨_, rfl, [.dropGuard], false, rfl, by decide⟩, ?_⟩
    rw [plain_count_of_waiting _ rfl]
    simp [hp]
  | basicWait held =>
    simp only [expireOne, hp, Option.some.injEq, Pool.abandon] at h
    obtain rfl := h
    refine ⟨⟨_, rfl, [.dropGuard], held, rfl, by decide⟩, ?_⟩
    rw [plain_count_of_waiting _ rfl]
    simp [hp]
  | waitFull | waitGlobal => simp [hp] at hin
  | _ => simp [expireOne, hp] at h

theorem plain_dropOne (kind : ι → AdmissionKind) (h : dropOne p i = some p') :
    (∃ ph, p'.phase = Function.update p.phase i ph ∧ InBasic (kind i) ph) ∧
      PlainPool.dropOne p.plain i = some p'.plain := by
  cases hp : p.phase i with
  | admitted held =>
    simp only [dropOne, hp, Option.some.injEq] at h
    obtain rfl := h
    refine ⟨⟨_, rfl, [.release .global], held, rfl, by decide⟩, ?_⟩
    simp [hp]
  | _ => simp [dropOne, hp] at h

/-- Every request is where it can be in basic mode. -/
def AllInBasic (kind : ι → AdmissionKind) (p : Pool ι) : Prop := ∀ i, InBasic (kind i) (p.phase i)

theorem allInBasic_update (hin : AllInBasic kind p)
    (h : ∃ ph, p'.phase = Function.update p.phase i ph ∧ InBasic (kind i) ph) : AllInBasic kind p' := by
  obtain ⟨ph, hp, hph⟩ := h
  intro j
  rw [hp]
  by_cases hj : j = i
  · subst hj
    rwa [Function.update_self]
  · rw [Function.update_of_ne hj]
    exact hin j

/-- A timeout, or the end of a dispatch. -/
def Event.external : Event ι → Bool
  | .run _ => false
  | .expire _ | .drop _ => true

theorem plain_step (hm : a.mode = .basic) (hin : AllInBasic kind p) {e : Event ι} (h : step a kind p e = some p') :
    AllInBasic kind p' ∧
      ((p'.plain = p.plain ∧ e.external = false) ∨ PlainPool.step a.maxWaiting kind p.plain e = some p'.plain) := by
  cases e with
  | run i =>
    obtain ⟨hph, hp⟩ := plain_runOne hm (hin i) h
    exact ⟨allInBasic_update hin hph, hp.imp_left fun hi => ⟨hi.1, rfl⟩⟩
  | expire i =>
    obtain ⟨hph, hp⟩ := plain_expireOne (hin i) h
    exact ⟨allInBasic_update hin hph, Or.inr hp⟩
  | drop i =>
    obtain ⟨hph, hp⟩ := plain_dropOne kind h
    exact ⟨allInBasic_update hin hph, Or.inr hp⟩

theorem runOne_isSome (hin : InBasic (kind i) (p.phase i))
    (h : (PlainPool.runOne a.maxWaiting kind p.plain i).isSome = true) : (runOne a kind p i).isSome = true := by
  cases hp : p.phase i with
  | tileWait | basicWait => simpa [runOne, hp, Pool.claim] using h
  | admitted held => simp [hp] at h
  | basicDepthTest held =>
    simp only [runOne, hp]
    split <;> rfl
  | exit todo answer =>
    cases todo with
    | nil => simp [hp] at h
    | cons c todo => cases c <;> simp [runOne, hp]
  | waitFull | waitGlobal | depthTest => simp [hp] at hin
  | _ => simp [runOne, hp]

theorem expireOne_isSome (h : (PlainPool.expireOne p.plain i).isSome = true) : (expireOne p i).isSome = true := by
  cases hp : p.phase i <;> simp [expireOne, hp] at h ⊢

theorem dropOne_isSome (h : (PlainPool.dropOne p.plain i).isSome = true) : (dropOne p i).isSome = true := by
  cases hp : p.phase i <;> simp [dropOne, hp] at h ⊢

theorem plain_of_hidden_exit {k : AdmissionKind} (hin : InBasic k (.exit (.release .full :: todo) answer)) :
    (Phase.exit (.release .full :: todo) answer).plain = .exit [] answer := by
  obtain ⟨own, held, heq, ho⟩ := hin
  cases own with
  | nil => simp [heq]
  | cons c own =>
    obtain ⟨rfl, -⟩ := List.cons.inj heq
    exact absurd List.mem_cons_self ho

theorem not_hidden_after (hm : a.mode = .basic) (hin : InBasic (kind i) (p.phase i))
    (hh : Hidden (kind i) (p.phase i)) (h : (PlainPool.runOne a.maxWaiting kind p.plain i).isSome = true)
    (hr : runOne a kind p i = some p') : ¬ Hidden (kind i) (p'.phase i) := by
  cases hp : p.phase i with
  | start =>
    have hk : kind i = .full := by simpa [hp] using hh
    simp only [runOne, hp, begin, hk, hm, Pool.tryLane, Option.some.injEq] at hr
    subst hr
    cases (p.sem .full).tryAcquire <;> simp [Pool.count, Pool.goto]
  | exit todo answer =>
    rcases todo with - | ⟨⟨lane⟩ | -, todo⟩
    · simp [hp] at hh
    · cases lane with
      | global => simp [hp] at hh
      | full =>
        have hpl := plain_of_hidden_exit (hp ▸ hin)
        simp [hp, hpl, -Phase.plain] at h
    · simp [hp] at hh
  | _ => simp [hp] at hh

theorem exists_steps_of_plain (hm : a.mode = .basic) (hin : AllInBasic kind p) {e : Event ι} {q : PlainPool ι}
    (h : PlainPool.step a.maxWaiting kind p.plain e = some q) :
    ∃ p', (step a kind p e = some p' ∨
        e.external = false ∧ ∃ p₁, step a kind p e = some p₁ ∧ step a kind p₁ e = some p') ∧
      p'.plain = q ∧ AllInBasic kind p' := by
  cases e with
  | run i =>
    have hp : PlainPool.runOne a.maxWaiting kind p.plain i = some q := h
    have hsm : (PlainPool.runOne a.maxWaiting kind p.plain i).isSome = true := by rw [hp]; rfl
    obtain ⟨p₁, hp₁⟩ := Option.isSome_iff_exists.mp (runOne_isSome (hin i) hsm)
    obtain ⟨hph, hf⟩ := plain_runOne hm (hin i) hp₁
    have hin₁ : AllInBasic kind p₁ := allInBasic_update hin hph
    rcases hf with ⟨hsa, hh⟩ | hs
    · rw [← hsa] at hp hsm
      obtain ⟨p₂, hp₂⟩ := Option.isSome_iff_exists.mp (runOne_isSome (hin₁ i) hsm)
      obtain ⟨hph₂, hfollows₂⟩ := plain_runOne hm (hin₁ i) hp₂
      rcases hfollows₂ with ⟨-, hhidden₂⟩ | hstep₂
      · exact absurd hhidden₂ (not_hidden_after hm (hin i) hh (hsa ▸ hsm) hp₁)
      · exact ⟨p₂, Or.inr ⟨rfl, p₁, hp₁, hp₂⟩, Option.some.inj (hstep₂.symm.trans hp), allInBasic_update hin₁ hph₂⟩
    · exact ⟨p₁, Or.inl hp₁, Option.some.inj (hs.symm.trans hp), hin₁⟩
  | expire i =>
    have hp : PlainPool.expireOne p.plain i = some q := h
    obtain ⟨p', hp'⟩ := Option.isSome_iff_exists.mp (expireOne_isSome (by rw [hp]; rfl))
    obtain ⟨hph, hs⟩ := plain_expireOne (hin i) hp'
    exact ⟨p', Or.inl hp', Option.some.inj (hs.symm.trans hp), allInBasic_update hin hph⟩
  | drop i =>
    have hp : PlainPool.dropOne p.plain i = some q := h
    obtain ⟨p', hp'⟩ := Option.isSome_iff_exists.mp (dropOne_isSome (by rw [hp]; rfl))
    obtain ⟨hph, hs⟩ := plain_dropOne kind hp'
    exact ⟨p', Or.inl hp', Option.some.inj (hs.symm.trans hp), allInBasic_update hin hph⟩

end Steps

/-! ### Whole runs -/

/-- A run of the plain pool. -/
def PlainRun [DecidableEq ι] (permitsTotal maxWaiting : ℕ) (kind : ι → AdmissionKind) (es : List (Event ι))
    (q : PlainPool ι) : Prop :=
  Run (fun q e q' => PlainPool.step maxWaiting kind q e = some q') (PlainPool.new permitsTotal) es q

/-- `Acquired`, without its permit. -/
inductive Verdict where
  | admitted
  | shed
  | timedOut
  deriving DecidableEq, Repr

/-- What `acquire` has answered. -/
def Answer.verdict : Answer → Verdict
  | .finished => .admitted
  | .shed => .shed
  | .timedOut => .timedOut

/-- What `acquire` has answered, if it has. -/
def Phase.verdict : Phase → Option Verdict
  | .admitting _ | .admitted _ => some .admitted
  | .exit _ answer => some answer.verdict
  | _ => none

/-- What the plain pool has answered, if it has. -/
def PlainPhase.verdict : PlainPhase → Option Verdict
  | .admitting | .admitted => some .admitted
  | .exit _ answer => some answer.verdict
  | _ => none

@[simp] theorem verdict_plain (ph : Phase) : ph.plain.verdict = ph.verdict := by
  cases ph <;> rfl

/-- `es'` is `es` without some operations. -/
def Thins (es es' : List (Event ι)) : Prop :=
  es'.Sublist es ∧ es'.filter Event.external = es.filter Event.external

section Runs
variable {a : Admission} {kind : ι → AdmissionKind}

theorem Thins.snoc {es es' : List (Event ι)} (h : Thins es es') (e : Event ι) : Thins (es ++ [e]) (es' ++ [e]) := by
  refine ⟨h.1.append (List.Sublist.refl [e]), ?_⟩
  rw [List.filter_append, List.filter_append, h.2]

theorem Thins.snoc_left {es es' : List (Event ι)} (h : Thins es es') {e : Event ι} (he : e.external = false) :
    Thins (es ++ [e]) es' := by
  refine ⟨h.1.trans (List.sublist_append_left es [e]), ?_⟩
  simp [List.filter_append, he, h.2]

theorem plain_new (a : Admission) : (Pool.new a : Pool ι).plain = PlainPool.new a.permitsTotal := by
  simp only [Pool.plain, Pool.new, PlainPool.new, Phase.plain, PlainPool.mk.injEq, true_and]
  funext k
  cases k <;> rfl

variable [DecidableEq ι]

theorem plainRun_of_poolRun (hm : a.mode = .basic) {es : List (Event ι)} {p : Pool ι} (h : PoolRun a kind es p) :
    AllInBasic kind p ∧ ∃ es', PlainRun a.permitsTotal a.maxWaiting kind es' p.plain ∧ Thins es es' := by
  refine h.history (fun es p => AllInBasic kind p ∧
    ∃ es', PlainRun a.permitsTotal a.maxWaiting kind es' p.plain ∧ Thins es es') ?_ ?_
  · exact ⟨fun _ => trivial, [], by rw [plain_new]; exact Run.nil _, List.Sublist.refl _, rfl⟩
  · rintro es t e u - ⟨hin, es', hr, ht⟩ hs
    obtain ⟨hi', hh | hst⟩ := plain_step hm hin hs
    · exact ⟨hi', es', hh.1 ▸ hr, ht.snoc_left hh.2⟩
    · exact ⟨hi', es' ++ [e], hr.snoc hst, ht.snoc e⟩

theorem poolRun_of_plainRun (hm : a.mode = .basic) {es' : List (Event ι)} {q : PlainPool ι}
    (h : PlainRun a.permitsTotal a.maxWaiting kind es' q) :
    ∃ es p, PoolRun a kind es p ∧ p.plain = q ∧ AllInBasic kind p ∧ Thins es es' := by
  refine h.history (fun es' q => ∃ es p, PoolRun a kind es p ∧ p.plain = q ∧ AllInBasic kind p ∧ Thins es es') ?_ ?_
  · exact ⟨[], Pool.new a, Run.nil _, plain_new a, fun _ => trivial, List.Sublist.refl _, rfl⟩
  · rintro es' t e u - ⟨es, p, hr, rfl, hin, ht⟩ hs
    obtain ⟨p', hst, hp, hi'⟩ := exists_steps_of_plain hm hin hs
    rcases hst with ho | ⟨he, p₁, hf, hsc⟩
    · exact ⟨es ++ [e], p', hr.snoc ho, hp, hi', ht.snoc e⟩
    · exact ⟨es ++ [e] ++ [e], p', (hr.snoc hf).snoc hsc, hp, hi', (ht.snoc_left he).snoc e⟩

theorem leaves (p : Pool ι) {i : ι} (hp : p.phase i = .exit todo answer) :
    ∃ p', Run (fun p e p' => step a kind p e = some p') p (List.replicate todo.length (.run i)) p' ∧
      p'.phase i = .exit [] answer := by
  induction todo generalizing p with
  | nil => exact ⟨p, Run.nil p, hp⟩
  | cons c todo ih =>
    obtain ⟨p₁, hs, hp₁⟩ : ∃ p₁, step a kind p (.run i) = some p₁ ∧ p₁.phase i = .exit todo answer := by
      cases c with
      | release lane =>
        exact ⟨p.release lane i (.exit todo answer), by simp [step, runOne, hp], by simp [Pool.release, Pool.goto]⟩
      | dropGuard =>
        exact ⟨(p.goto i (.exit todo answer)).count (dropGuard (kind i)), by simp [step, runOne, hp],
          by simp [Pool.count, Pool.goto]⟩
    obtain ⟨p', hr, he⟩ := ih p₁ hp₁
    exact ⟨p', hr.cons hs, he⟩

variable [Fintype ι]

theorem full_permits (hm : a.mode = .basic) {es : List (Event ι)} {p : Pool ι} (h : PoolRun a kind es p) :
    (p.sem .full).permits + ∑ i, held .full (p.phase i) = a.fullMax := by
  have ha := accounted_of_run h .full
  have hin := (plainRun_of_poolRun hm h).1
  -- nobody waits for the full lane, so nobody has been handed a permit of it
  have hn : (p.sem .full).waiters = [] := by
    refine List.eq_nil_iff_forall_not_mem.mpr fun i hi => ?_
    have hw := (ha.mem i).mp hi
    have hph := hin i
    cases hp : p.phase i <;> simp [hp, waits, InBasic] at hw hph
  have hg : (p.sem .full).granted = [] := (List.append_eq_nil_iff.mp hn).2
  have hb := ha.balance
  simpa [Semaphore.out, hg, Admission.capacity] using hb

/-- **Basic mode changes nothing but the counters**: its runs and those of the plain pool, which has no full lane,
are the same up to the operations on the full lane, with the same answer to every request. -/
theorem basic_answers_as_plain (a : Admission) (hmode : a.mode = .basic) (kind : ι → AdmissionKind) :
    (∀ es p, PoolRun a kind es p → ∃ es' q, PlainRun a.permitsTotal a.maxWaiting kind es' q ∧ Thins es es' ∧
      ∀ i, (p.phase i).verdict = (q.phase i).verdict) ∧
    (∀ es' q, PlainRun a.permitsTotal a.maxWaiting kind es' q → ∃ es p, PoolRun a kind es p ∧ Thins es es' ∧
      ∀ i, (p.phase i).verdict = (q.phase i).verdict) ∧
    ∀ es p, PoolRun a kind es p →
      (p.sem .full).permits + ∑ i, held .full (p.phase i) = a.fullMax ∧
      (∀ i, (p.phase i).atRest = true → held .full (p.phase i) = 0) ∧
      ∀ i todo answer, p.phase i = .exit todo answer →
        ∃ p', Run (fun p e p' => step a kind p e = some p') p (List.replicate todo.length (.run i)) p' ∧
          p'.phase i = .exit [] answer := by
  refine ⟨fun es p h => ?_, fun es' q h => ?_, fun es p h => ⟨full_permits hmode h, ?_, ?_⟩⟩
  · obtain ⟨-, es', hrn, ht⟩ := plainRun_of_poolRun hmode h
    exact ⟨es', p.plain, hrn, ht, fun i => (verdict_plain (p.phase i)).symm⟩
  · obtain ⟨es, p, hrn, rfl, -, ht⟩ := poolRun_of_plainRun hmode h
    exact ⟨es, p, hrn, ht, fun i => (verdict_plain (p.phase i)).symm⟩
  · exact fun i hr => (held_of_atRest hr .full).1
  · exact fun i todo answer hp => leaves p hp

end Runs

def twoBasicWorkers : Admission := ⟨2, 1, 1, 0, .basic⟩

theorem basic_admits_past_the_lane :
    ∃ p : Pool Bool,
      PoolRun twoBasicWorkers (fun _ => .full) [.run false, .run false, .run true, .run true] p ∧
      (p.phase true).verdict = some .admitted ∧ held .full (p.phase true) = 0 ∧
      ∃ es' q, PlainRun 2 0 (fun _ => .full) es' q ∧
        Thins [.run false, .run false, .run true, .run true] es' ∧ ∀ i, (p.phase i).verdict = (q.phase i).verdict := by
  have hpl : ((play (step twoBasicWorkers fun _ => .full) (fun _ _ => True) (Pool.new twoBasicWorkers)
      [.run false, .run false, .run true, .run true]).map fun p => p.phase true) = some (.admitted false) := by
    decide +kernel
  obtain ⟨p, hp, hph⟩ := Option.map_eq_some_iff.mp hpl
  have hr : PoolRun twoBasicWorkers (fun _ => .full) [.run false, .run false, .run true, .run true] p :=
    (run_of_play hp).mono fun _ _ _ hs => hs.2
  exact ⟨p, hr, by rw [hph]; rfl, by rw [hph]; rfl,
    (basic_answers_as_plain twoBasicWorkers rfl fun _ => .full).1 _ p hr⟩

end Sipi.Throttling
