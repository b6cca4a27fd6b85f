import Sipi.Theory.Runs
import Sipi.Theory.Semaphore
import Mathlib.Data.Rat.Floor

/-!
# The two-lane admission pool

`src/throttling/rust/lib.rs`.

## Honest scope

The ratio is a rational. The semaphores are never closed. The totals of sheds are incremented in the step that
decides the shed. The snapshot is left out.
-/

namespace Sipi.Throttling

open Sipi.Theory

/-! ### Construction -/

/-- `AdmissionMode`. -/
inductive AdmissionMode where
  | basic
  | advanced
  deriving DecidableEq, Repr

/-- `AdmissionKind`. -/
inductive AdmissionKind where
  | tile
  | full
  deriving DecidableEq, Repr

/-- `AdmissionConfig`, as far as the pool reads it. -/
structure AdmissionConfig where
  nthreads : ℕ
  tilesThreadRatio : ℚ
  tilesMemoryRatio : ℚ
  mode : AdmissionMode
  maxWaiting : ℕ

/-- `AdmissionError`: a ratio not between 0 and 1. -/
inductive AdmissionError where
  | ratio (name : String) (value : ℚ)
  deriving DecidableEq, Repr

/-- `Admission`, without its semaphores and counters. -/
structure Admission where
  permitsTotal : ℕ
  tileMin : ℕ
  fullMax : ℕ
  maxWaiting : ℕ
  mode : AdmissionMode

/-- `f64::round` of a number that is not negative. -/
def round (x : ℚ) : ℕ := ⌊x + 1 / 2⌋₊

/-- The size of the two lanes. -/
def lanes (permitsTotal : ℕ) (ratio : ℚ) : ℕ × ℕ :=
  if permitsTotal < 2 then (0, max permitsTotal 1)
  else
    let tileMin := max 1 (min (round (permitsTotal * ratio)) (permitsTotal - 1))
    (tileMin, max (permitsTotal - tileMin) 1)

/-- `Admission::new`, for this parallelism. -/
def Admission.new (parallelism : Option ℕ) (cfg : AdmissionConfig) : Except AdmissionError Admission :=
  if ¬ (0 < cfg.tilesThreadRatio ∧ cfg.tilesThreadRatio < 1) then
    .error (.ratio "tiles_thread_ratio" cfg.tilesThreadRatio)
  else if ¬ (0 < cfg.tilesMemoryRatio ∧ cfg.tilesMemoryRatio < 1) then
    .error (.ratio "tiles_memory_ratio" cfg.tilesMemoryRatio)
  else
    let permitsTotal := if 0 < cfg.nthreads then cfg.nthreads else parallelism.getD 4
    let (tileMin, fullMax) := lanes permitsTotal cfg.tilesThreadRatio
    .ok ⟨permitsTotal, tileMin, fullMax, cfg.maxWaiting, cfg.mode⟩

theorem lanes_add {permitsTotal : ℕ} (h : 2 ≤ permitsTotal) (ratio : ℚ) :
    (lanes permitsTotal ratio).1 + (lanes permitsTotal ratio).2 = permitsTotal := by
  simp only [lanes, if_neg (Nat.not_lt.mpr h)]
  omega

theorem Admission.new_eq_ok {parallelism : Option ℕ} {cfg : AdmissionConfig} {a : Admission}
    (h : Admission.new parallelism cfg = .ok a) :
    (a.tileMin, a.fullMax) = lanes a.permitsTotal cfg.tilesThreadRatio ∧ a.mode = cfg.mode := by
  unfold Admission.new at h
  split at h
  · cases h
  · split at h
    · cases h
    · cases h
      exact ⟨rfl, rfl⟩

/-! ### Requests -/

/-- The two semaphores. -/
inductive Lane where
  | global
  | full
  deriving DecidableEq, Repr

/-- What `acquire` and the life after it end in. -/
inductive Answer where
  | finished
  | shed
  | timedOut
  deriving DecidableEq, Repr

/-- What a request still has to give back. -/
inductive Cleanup where
  | release (lane : Lane)
  | dropGuard
  deriving DecidableEq, Repr

/-- Where a request is. -/
inductive Phase where
  | start
  | tileBusy
  | tileAcquire
  | tileWait
  | fastGlobal
  | dropFull
  | depthTest
  | enter
  | acquireFull
  | waitFull
  | acquireGlobal
  | waitGlobal
  | basicGlobal (held : Bool)
  | basicDepthTest (held : Bool)
  | basicEnter (held : Bool)
  | basicAcquire (held : Bool)
  | basicWait (held : Bool)
  | admitting (held : Bool)
  | admitted (held : Bool)
  | exit (todo : List Cleanup) (answer : Answer)
  deriving DecidableEq, Repr

/-- The counters of the pool. -/
structure Counters where
  tileWaiting : ℕ
  fullWaiting : ℕ
  tileShed : ℕ
  fullShed : ℕ
  fullShadowRejected : ℕ
  deriving DecidableEq, Repr

/-- The pool and the requests at it. -/
structure Pool (ι : Type*) where
  sem : Lane → Semaphore ι
  phase : ι → Phase
  counters : Counters

/-- What can happen. -/
inductive Event (ι : Type*) where
  | run (i : ι)
  | expire (i : ι)
  | drop (i : ι)

variable {ι : Type*} [DecidableEq ι]

namespace Pool

/-- The request `i` goes on to `ph`. -/
def goto (p : Pool ι) (i : ι) (ph : Phase) : Pool ι :=
  { p with phase := Function.update p.phase i ph }

/-- The semaphore of a lane is now `s`. -/
def withSem (p : Pool ι) (lane : Lane) (s : Semaphore ι) : Pool ι :=
  { p with sem := Function.update p.sem lane s }

/-- `try_acquire_owned`. -/
def tryLane (p : Pool ι) (lane : Lane) (i : ι) (got busy : Phase) : Pool ι :=
  match (p.sem lane).tryAcquire with
  | some s => (p.withSem lane s).goto i got
  | none => p.goto i busy

/-- The first poll of `acquire_owned`. -/
def park (p : Pool ι) (lane : Lane) (i : ι) (got wait : Phase) : Pool ι :=
  (p.withSem lane ((p.sem lane).acquire i).1).goto i (if ((p.sem lane).acquire i).2 then got else wait)

/-- A later poll of `acquire_owned`. -/
def claim (p : Pool ι) (lane : Lane) (i : ι) (got : Phase) : Option (Pool ι) :=
  ((p.sem lane).claim i).map fun s => (p.withSem lane s).goto i got

/-- Drop a permit. -/
def release (p : Pool ι) (lane : Lane) (i : ι) (next : Phase) : Pool ι :=
  (p.withSem lane (p.sem lane).release).goto i next

/-- Drop the future of `acquire_owned`. -/
def abandon (p : Pool ι) (lane : Lane) (i : ι) (next : Phase) : Pool ι :=
  (p.withSem lane ((p.sem lane).cancel i)).goto i next

/-- Change the counters. -/
def count (p : Pool ι) (f : Counters → Counters) : Pool ι := { p with counters := f p.counters }

end Pool

/-- Drop the wait guard of a request. -/
def dropGuard : AdmissionKind → Counters → Counters
  | .tile, c => { c with tileWaiting := c.tileWaiting - 1 }
  | .full, c => { c with fullWaiting := c.fullWaiting - 1 }

/-- The queue of waiting fulls is at capacity. -/
def Admission.queueFull (a : Admission) (c : Counters) : Bool :=
  decide (a.maxWaiting = 0) || decide (a.maxWaiting ≤ c.fullWaiting)

/-- What a full permit in basic mode leaves to do. -/
def releaseIf (held : Bool) : List Cleanup := if held then [.release .full] else []

variable (a : Admission) (kind : ι → AdmissionKind)

/-- The first operation of `acquire`. -/
def begin (p : Pool ι) (i : ι) : Pool ι :=
  match kind i, a.mode with
  | .tile, _ => p.tryLane .global i (.admitted false) .tileBusy
  | .full, .advanced => p.tryLane .full i .fastGlobal .depthTest
  | .full, .basic =>
    let rejected := (p.sem .full).tryAcquire.isNone
    (p.tryLane .full i (.basicGlobal true) (.basicGlobal false)).count fun c =>
      { c with fullShadowRejected := c.fullShadowRejected + rejected.toNat }

/-- The next operation of the request `i`. -/
def runOne (p : Pool ι) (i : ι) : Option (Pool ι) :=
  match p.phase i with
  | .start => some (begin a kind p i)
  | .tileBusy => some ((p.goto i .tileAcquire).count fun c => { c with tileWaiting := c.tileWaiting + 1 })
  | .tileAcquire => some (p.park .global i (.admitting false) .tileWait)
  | .tileWait => p.claim .global i (.admitting false)
  | .fastGlobal => some (p.tryLane .global i (.admitted true) .dropFull)
  | .dropFull => some (p.release .full i .depthTest)
  | .depthTest =>
    if a.queueFull p.counters then
      some ((p.goto i (.exit [] .shed)).count fun c => { c with fullShed := c.fullShed + 1 })
    else some (p.goto i .enter)
  | .enter => some ((p.goto i .acquireFull).count fun c => { c with fullWaiting := c.fullWaiting + 1 })
  | .acquireFull => some (p.park .full i .acquireGlobal .waitFull)
  | .waitFull => p.claim .full i .acquireGlobal
  | .acquireGlobal => some (p.park .global i (.admitting true) .waitGlobal)
  | .waitGlobal => p.claim .global i (.admitting true)
  | .basicGlobal held => some (p.tryLane .global i (.admitted held) (.basicDepthTest held))
  | .basicDepthTest held =>
    if a.queueFull p.counters then
      some ((p.goto i (.exit (releaseIf held) .shed)).count fun c => { c with fullShed := c.fullShed + 1 })
    else some (p.goto i (.basicEnter held))
  | .basicEnter held =>
    some ((p.goto i (.basicAcquire held)).count fun c => { c with fullWaiting := c.fullWaiting + 1 })
  | .basicAcquire held => some (p.park .global i (.admitting held) (.basicWait held))
  | .basicWait held => p.claim .global i (.admitting held)
  | .admitting held => some ((p.goto i (.admitted held)).count (dropGuard (kind i)))
  | .admitted _ => none
  | .exit (.release lane :: todo) answer => some (p.release lane i (.exit todo answer))
  | .exit (.dropGuard :: todo) answer => some ((p.goto i (.exit todo answer)).count (dropGuard (kind i)))
  | .exit [] _ => none

/-- The timeout of a parked request. -/
def expireOne (p : Pool ι) (i : ι) : Option (Pool ι) :=
  match p.phase i with
  | .tileWait =>
    some ((p.abandon .global i (.exit [.dropGuard] .timedOut)).count fun c => { c with tileShed := c.tileShed + 1 })
  | .waitFull =>
    some ((p.abandon .full i (.exit [.dropGuard] .timedOut)).count fun c => { c with fullShed := c.fullShed + 1 })
  | .waitGlobal =>
    some ((p.abandon .global i (.exit [.release .full, .dropGuard] .timedOut)).count fun c =>
      { c with fullShed := c.fullShed + 1 })
  | .basicWait held =>
    some ((p.abandon .global i (.exit (.dropGuard :: releaseIf held) .timedOut)).count fun c =>
      { c with fullShed := c.fullShed + 1 })
  | _ => none

/-- The end of a dispatch, the global part first. -/
def dropOne (p : Pool ι) (i : ι) : Option (Pool ι) :=
  match p.phase i with
  | .admitted held => some (p.goto i (.exit (.release .global :: releaseIf held) .finished))
  | _ => none

/-- One event. -/
def step (p : Pool ι) : Event ι → Option (Pool ι)
  | .run i => runOne a kind p i
  | .expire i => expireOne p i
  | .drop i => dropOne p i

omit [DecidableEq ι] in
/-- The pool with no request begun. -/
def Pool.new (a : Admission) : Pool ι where
  sem lane := match lane with
    | .global => Semaphore.new a.permitsTotal
    | .full => Semaphore.new a.fullMax
  phase _ := .start
  counters := ⟨0, 0, 0, 0, 0⟩

/-- A run: any interleaving of operations. -/
def PoolRun (es : List (Event ι)) (p : Pool ι) : Prop :=
  Run (fun p e p' => step a kind p e = some p') (Pool.new a) es p

end Sipi.Throttling
