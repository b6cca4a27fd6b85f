import Sipi.Scripting.Route

/-!
# The integrity of the body of a Lua route

A client that sees a success head and a clean end of the body takes the response to be whole.

## Honest scope

An abort, where one is sent, is sent within its two seconds.
-/

namespace Sipi.Scripting

open Sipi.Iiif Sipi.Serve Sipi.Theory

/-- The head is out if something was written. -/
structure Consistent (r : Route) : Prop where
  slot : r.outcomeTx = !r.committed
  commit : r.commit = !r.committed
  quiet : r.committed = false → r.outcomes = [] ∧ r.printed = []
  head : r.committed = true → ∃ status headers, r.outcomes = [.streamHead status headers]
  items : r.items = (r.printed.filter fun p => p.2).map fun p => .chunk p.1

namespace Consistent

variable {r : Route}

theorem commitHead (h : Consistent r) :
    r.commitHead.committed = true ∧ r.commitHead.outcomeTx = false ∧ r.commitHead.commit = false ∧
      ∃ status headers, r.commitHead.outcomes = [.streamHead status headers] := by
  unfold Route.commitHead
  cases hc : r.committed with
  | true =>
    have hs := h.slot
    have hcm := h.commit
    rw [hc] at hs hcm
    simpa [hs, hcm, hc] using h.head hc
  | false =>
    have hs := h.slot
    have hcm := h.commit
    rw [hc] at hs hcm
    simp [Route.sendHead, hs, hcm, (h.quiet hc).1]

theorem write (h : Consistent r) (sched : Schedule) (deadline : ℕ) (data : Bytes) :
    Consistent (r.write sched deadline data).2 := by
  obtain ⟨now, readings, tries, log, sent, heq, -⟩ := r.write_cases sched deadline data
  obtain ⟨hc, hs, hcm, hh⟩ := h.commitHead
  rw [heq]
  refine ⟨?_, ?_, ?_, fun _ => hh, ?_⟩
  · simp [Route.later, hc, hs]
  · simp [Route.later, hc, hcm]
  · simp [Route.later, hc]
  · cases sent <;> simp [h.items]

theorem kept (sched : Schedule) (deadline : ℕ) : Kept sched deadline Consistent where
  tick h := ⟨h.slot, h.commit, h.quiet, h.head, h.items⟩
  head _ _ _ h := ⟨h.slot, h.commit, h.quiet, h.head, h.items⟩
  write data h := h.write sched deadline data

theorem new : Consistent Route.new := ⟨rfl, rfl, fun _ => ⟨rfl, rfl⟩, nofun, rfl⟩

theorem items_eq_iff (h : Consistent r) : r.items = r.chunks ↔ ∀ p ∈ r.printed, p.2 = true := by
  rw [h.items, Route.chunks]
  constructor
  · intro heq
    have hl := congrArg List.length heq
    rw [List.length_map, List.length_map] at hl
    exact List.length_filter_eq_length_iff.1 hl
  · intro ha
    rw [List.filter_eq_self.2 ha]

theorem abort_not_mem (h : Consistent r) : BodyItem.abort ∉ r.items := by
  rw [h.items]
  simp

end Consistent

/-- All was sent if no answer ended a send. -/
def LogTells (deadline : ℕ) (r : Route) : Prop :=
  (∀ p ∈ r.printed, p.2 = true) ↔ ∀ a ∈ r.answers, ¬ Route.GivesUp deadline a

theorem LogTells.kept (sched : Schedule) (deadline : ℕ) : Kept sched deadline (LogTells deadline) where
  tick h := h
  head _ _ _ h := h
  write {r} data h := by
    obtain ⟨now, readings, tries, log, sent, heq, hiff⟩ := r.write_cases sched deadline data
    unfold LogTells at h ⊢
    rw [heq]
    simp only [Route.later, Route.commitHead_answers, List.forall_mem_append, List.forall_mem_singleton, h, hiff]

/-! ### What the client sees -/

/-- What a client sees that stays. -/
def Route.visible (r : Route) : Visible :=
  match r.outcomes.head? with
  | none => .complete 500 []
  | some (.complete status headers) => .complete status headers
  | some (.streamHead status headers) =>
    .stream (mapStatusU16 status) headers (bytesOf r.items) (decide (BodyItem.abort ∈ r.items))

/-- A success head and a clean end. -/
def Clean : Visible → Prop
  | .complete status _ => status < 400
  | .stream status _ _ aborted => status < 400 ∧ aborted = false

instance : (v : Visible) → Decidable (Clean v)
  | .complete status _ => inferInstanceAs (Decidable (status < 400))
  | .stream status _ _ aborted => inferInstanceAs (Decidable (status < 400 ∧ aborted = false))

/-- An error status, or an abort. -/
def SeenToFail : Visible → Prop
  | .complete status _ => 400 ≤ status
  | .stream _ _ _ aborted => aborted = true

/-- A clean success means that all was sent. -/
structure Intact (succeeded : Prop) (r : Route) : Prop where
  one : ∃ outcome, r.outcomes = [outcome]
  /-- What looks whole is whole. -/
  clean : Clean r.visible → succeeded ∧ r.items = r.chunks
  other : ¬ (succeeded ∧ r.items = r.chunks) → SeenToFail r.visible

section
variable {r : Route} {succeeded : Prop}

theorem intact_of_whole (ho : ∃ outcome, r.outcomes = [outcome]) (h : succeeded) (hi : r.items = r.chunks) :
    Intact succeeded r := ⟨ho, fun _ => ⟨h, hi⟩, fun hn => absurd ⟨h, hi⟩ hn⟩

theorem visible_of_streamHead {status : ℕ} {headers : List Header} (h : r.outcomes = [.streamHead status headers]) :
    r.visible = .stream (mapStatusU16 status) headers (bytesOf r.items) (decide (BodyItem.abort ∈ r.items)) := by
  simp [Route.visible, h]

theorem Consistent.not_intact (h : Consistent r) (hc : r.committed = true)
    (hn : ¬ (succeeded ∧ r.items = r.chunks)) : ¬ Intact succeeded r := by
  intro hi
  obtain ⟨status, headers, hh⟩ := h.head hc
  have hf := hi.other hn
  rw [visible_of_streamHead hh] at hf
  exact h.abort_not_mem (of_decide_eq_true hf)

theorem Consistent.complete_eq (h : Consistent r) (hc : r.committed = false) (status : ℕ) (headers : List Header) :
    r.complete status headers = { r with outcomeTx := false, outcomes := [.complete status headers] } := by
  have hs := h.slot
  rw [hc] at hs
  simp [Route.complete, hs, (h.quiet hc).1]

theorem Consistent.complete_of_committed (h : Consistent r) (hc : r.committed = true) (status : ℕ)
    (headers : List Header) : r.complete status headers = r := by
  have hs := h.slot
  rw [hc] at hs
  simp [Route.complete, hs]

theorem Consistent.intact_error (h : Consistent r) (hc : r.committed = false) {status : ℕ}
    (hs : 400 ≤ status) : Intact succeeded (r.complete status []) := by
  rw [h.complete_eq hc]
  exact ⟨⟨_, rfl⟩, fun hcl => absurd hcl (not_lt.2 hs), fun _ => hs⟩

theorem Consistent.intact_abort (h : Consistent r) (hc : r.committed = true) {sched : Schedule}
    (hs : (sendAbort sched r).1 = true) : Intact succeeded (sendAbort sched r).2 := by
  obtain ⟨status, headers, hh⟩ := h.head hc
  obtain ⟨now, readings, tries, log, sent, heq, -⟩ :=
    Route.sendBodyUntil_cases sched .abort ((r.tick sched).now + 2000) (r.tick sched)
  rw [sendAbort, heq] at hs ⊢
  obtain rfl : sent = true := hs
  have hv := visible_of_streamHead (r := { (r.tick sched).later now readings tries log with
    items := (r.tick sched).items ++ [.abort] }) hh
  rw [decide_eq_true (by simp)] at hv
  refine ⟨⟨_, hh⟩, fun hcl => ?_, fun _ => ?_⟩
  · exact absurd (hv ▸ hcl).2 (by decide)
  · exact hv ▸ rfl

end

/-! ### When a body is intact -/

section
variable {σ : Type} (sched : Schedule) (env : LuaEnv σ) (script : RouteScript σ)

/-- The setup of a route. -/
def setup : Except RuntimeError (σ × Deadlines) × Route :=
  vmWithBindings sched env ((started sched).now + env.timeout) (started sched)

/-- An init script that prints is followed by one. -/
def InitQuiet : Prop :=
  (setup sched env).2.committed = true → (∃ vm, (setup sched env).1 = .ok vm) ∧ ¬ script.Missing

/-- `write_deadline`. -/
def writeDeadline : ℕ := (started sched).now + env.timeout

/-- As long as a script runs that succeeds, the channel is not closed, and not full when the write deadline is
over. -/
def KeepsUp : Prop :=
  (ran sched env script).1.result = .ok () →
    ∀ a ∈ (ran sched env script).2.answers, a.1 ≠ .closed ∧ (a.1 = .full → a.2 < writeDeadline sched env)

/-- An abort of the body is sent within its two seconds, if the script fails or is killed after the head. -/
def AbortSent : Prop :=
  ∀ failure, (ran sched env script).1.result = .error failure → failure ≠ .notFound →
    (ran sched env script).1.committed = true → (sendAbort sched (ran sched env script).2).1 = true

end

variable {r : Route}

section
variable {σ : Type} {sched : Schedule} {env : LuaEnv σ} {script : RouteScript σ}

theorem consistent_ran : Consistent (ran sched env script).2 :=
  (Consistent.kept sched _).runRoute script ((Consistent.kept sched 0).tick Consistent.new)

theorem keepsUp_iff : KeepsUp sched env script ↔
    ((ran sched env script).1.result = .ok () → ∀ p ∈ (ran sched env script).2.printed, p.2 = true) := by
  have hl : LogTells (writeDeadline sched env) (ran sched env script).2 :=
    (LogTells.kept sched _).runRoute script ((LogTells.kept sched _).tick (by simp [LogTells, Route.new]))
  refine imp_congr_right fun _ => Iff.trans ?_ (Iff.symm hl)
  simp [Route.GivesUp]

@[simp] theorem routeFailure_ne_notFound (e : RuntimeError) : routeFailure e ≠ .notFound := by cases e <;> decide

theorem writeTail_ne_notFound (d : Deadlines) (tail : Bytes) (r : Route) :
    (writeTail sched d tail r).1 ≠ .error .notFound := by
  unfold writeTail
  split <;> simp

theorem eluaLoop_ne_notFound (d : Deadlines) (fuel : ℕ) (code : Bytes) (vm : σ) (r : Route) :
    (eluaLoop sched env d fuel code vm r).1 ≠ .error .notFound := by
  induction fuel generalizing code vm r with
  | zero => exact writeTail_ne_notFound d code r
  | succ fuel ih =>
    unfold eluaLoop eluaRound
    split
    · exact writeTail_ne_notFound d code r
    · split
      · simp
      · split
        · split <;> simp
        · split
          · exact ih _ _ _
          · simp

theorem runScript_notFound_iff (d : Deadlines) (vm : σ) (r : Route) :
    (runScript sched env d script vm r).1 = .error .notFound ↔ script.Missing := by
  unfold runScript
  split
  · simp [RouteScript.Missing]
  · simp [RouteScript.Missing]
  · simp only [RouteScript.Missing, iff_false]
    split <;> simp
  · simp [RouteScript.Missing]
  · simp [RouteScript.Missing]
  · exact iff_of_false (eluaLoop_ne_notFound d _ _ vm r) id
  · simp [RouteScript.Missing]

theorem runScript_of_missing (h : script.Missing) (d : Deadlines) (vm : σ) (r : Route) :
    (runScript sched env d script vm r).2 = r := by
  unfold runScript
  unfold RouteScript.Missing at h
  split at h
  · rfl
  · rfl
  · exact h.elim

theorem ran_of_setup_error {e : RuntimeError} (h : (setup sched env).1 = .error e) :
    ran sched env script = (⟨.error (routeFailure e), false, (500, [])⟩, (setup sched env).2) := by
  unfold setup at h ⊢
  rw [ran, runRoute]
  split
  · next heq => rw [heq] at h ⊢; cases h; rfl
  · next heq => rw [heq] at h; cases h

theorem ran_of_setup_ok {vm : σ} {d : Deadlines} (h : (setup sched env).1 = .ok (vm, d)) :
    ran sched env script =
      (⟨(runScript sched env d script vm (setup sched env).2).1,
        (runScript sched env d script vm (setup sched env).2).2.committed,
        (runScript sched env d script vm (setup sched env).2).2.headSnapshot⟩,
        (runScript sched env d script vm (setup sched env).2).2) := by
  unfold setup at h ⊢
  rw [ran, runRoute]
  split
  · next heq => rw [heq] at h; cases h
  · next heq => rw [heq] at h ⊢; cases h; rfl

theorem finish_of_setup_error (e : RuntimeError) (head : ℕ × List Header) (r : Route) :
    finish sched ⟨.error (routeFailure e), false, head⟩ r = r.complete 500 [] := by
  cases e <;> rfl

theorem abortOr_intact (hcn : Consistent r) (ha : r.committed = true → (sendAbort sched r).1 = true)
    (result : Except RouteFailure Unit) (head : ℕ × List Header) (succeeded : Prop) :
    Intact succeeded (abortOr sched ⟨result, r.committed, head⟩ 500 r) := by
  unfold abortOr
  cases hc : r.committed with
  | true => exact hcn.intact_abort hc (ha hc)
  | false => exact hcn.intact_error hc (by decide)

theorem finish_intact_iff {result : Except RouteFailure Unit} (hcn : Consistent r)
    (ha : ∀ failure, result = .error failure → failure ≠ .notFound → r.committed = true →
      (sendAbort sched r).1 = true) (head : ℕ × List Header) :
    Intact (result = .ok ()) (finish sched ⟨result, r.committed, head⟩ r) ↔
      (result = .error .notFound → r.committed = false) ∧ (result = .ok () → ∀ p ∈ r.printed, p.2 = true) := by
  rw [← hcn.items_eq_iff]
  cases result with
  | ok u =>
    simp only [finish, reduceCtorEq, false_imp_iff, true_and, true_imp_iff]
    cases hc : r.committed with
    | true =>
      rw [hcn.complete_of_committed hc]
      constructor
      · intro hin
        by_contra hn
        exact hcn.not_intact hc (fun h => hn h.2) hin
      · obtain ⟨status, headers, hh⟩ := hcn.head hc
        exact intact_of_whole ⟨_, hh⟩ trivial
    | false =>
      have hi : r.items = r.chunks := hcn.items_eq_iff.2 (by simp [(hcn.quiet hc).2])
      rw [hcn.complete_eq hc]
      exact iff_of_true (intact_of_whole ⟨_, rfl⟩ trivial hi) hi
  | error failure =>
    cases failure with
    | notFound =>
      simp only [finish, reduceCtorEq, false_imp_iff, and_true, true_imp_iff]
      cases hc : r.committed with
      | true =>
        rw [hcn.complete_of_committed hc]
        exact iff_of_false (hcn.not_intact hc And.left) Bool.noConfusion
      | false => exact iff_of_true (hcn.intact_error hc (by decide)) rfl
    | killed | error => exact iff_of_true (abortOr_intact hcn (ha _ rfl (by decide)) _ head _) ⟨nofun, nofun⟩

end

/-- **The integrity of a body.** Whatever the scripts do, as long as the aborts can be sent, a response is whole or
is seen not to be exactly if the init script has printed nothing when the setup fails or the script is missing, and
the channel keeps up with a script that succeeds. -/
theorem body_integrity_iff {σ : Type} (sched : Schedule) (env : LuaEnv σ) (script : RouteScript σ)
    (habort : AbortSent sched env script) :
    Intact ((ran sched env script).1.result = .ok ()) (runLuaRouteBlocking sched env script) ↔
      InitQuiet sched env script ∧ KeepsUp sched env script := by
  have hcn : Consistent (ran sched env script).2 := consistent_ran
  unfold AbortSent at habort
  rw [keepsUp_iff]
  unfold InitQuiet runLuaRouteBlocking
  cases hs : (setup sched env).1 with
  | error e =>
    rw [ran_of_setup_error hs] at hcn ⊢
    rw [finish_of_setup_error]
    cases hc : (setup sched env).2.committed with
    | true =>
      rw [hcn.complete_of_committed hc]
      refine iff_of_false (hcn.not_intact hc fun hn => by cases hn.1) fun hq => ?_
      obtain ⟨vm, hvm⟩ := (hq.1 rfl).1
      cases hvm
    | false => exact iff_of_true (hcn.intact_error hc (by decide)) ⟨nofun, nofun⟩
  | ok p =>
    obtain ⟨vm, d⟩ := p
    rw [ran_of_setup_ok hs] at hcn habort ⊢
    rw [finish_intact_iff hcn habort, runScript_notFound_iff]
    refine and_congr_left' ⟨fun hm hc => ⟨⟨_, rfl⟩, fun hg => ?_⟩, fun hq hg => ?_⟩
    · have hn := hm hg
      rw [runScript_of_missing hg, hc] at hn
      cases hn
    · rw [runScript_of_missing hg]
      by_contra hc
      exact (hq (Bool.not_eq_false _ ▸ hc)).2 hg

def printing (text : Bytes) (ending : Ending) : Script Unit := fun _ =>
  .call (.print [.string text]) fun _ => .done (ending, ())

def server (init : Option (Loaded (Script Unit))) : LuaEnv Unit :=
  ⟨true, (), init, fun _ _ => .done (.returned, ()), 1⟩

def calm : Schedule := ⟨fun _ => .taken, fun _ => 0⟩

/-- The client takes one chunk only. -/
def stalled : Schedule := ⟨fun i => if i = 0 then .taken else .full, fun i => if i = 1 then 10 else 0⟩

theorem page_intact :
    Intact ((ran calm (server none) (.lua (.found (printing [0x68, 0x69] .returned)))).1.result = .ok ())
      (runLuaRouteBlocking calm (server none) (.lua (.found (printing [0x68, 0x69] .returned)))) := by
  have hok : (ran calm (server none) (.lua (.found (printing [0x68, 0x69] .returned)))).1.result = .ok () := by
    decide +kernel
  refine (body_integrity_iff calm (server none) (.lua (.found (printing [0x68, 0x69] .returned))) ?_).2 ⟨?_, ?_⟩
  · intro failure hf
    cases hok.symm.trans hf
  · exact fun h => absurd h (by decide +kernel)
  · exact fun _ => by decide +kernel

/-- Code that prints twice and looks at nothing. -/
def careless : Script Unit := fun _ =>
  .call (.print [.string [0x61]]) fun _ => .call (.print [.string [0x62]]) fun _ => .done (.returned, ())

theorem bodies_are_cut_off :
    ¬ Intact ((ran calm (server (some (.found (printing [0x61] .errored)))) (.lua (.found careless))).1.result = .ok ())
      (runLuaRouteBlocking calm (server (some (.found (printing [0x61] .errored)))) (.lua (.found careless))) ∧
    ¬ Intact ((ran calm (server (some (.found (printing [0x61] .returned)))) (.lua .notFound)).1.result = .ok ())
      (runLuaRouteBlocking calm (server (some (.found (printing [0x61] .returned)))) (.lua .notFound)) ∧
    ¬ Intact ((ran stalled (server none) (.lua (.found careless))).1.result = .ok ())
      (runLuaRouteBlocking stalled (server none) (.lua (.found careless))) := by
  refine ⟨fun h => ?_, fun h => ?_, fun h => ?_⟩
  · exact absurd (h.clean (by decide +kernel)).1 (by decide +kernel)
  · exact absurd (h.clean (by decide +kernel)).1 (by decide +kernel)
  · exact absurd (h.clean (by decide +kernel)).2 (by decide +kernel)

end Sipi.Scripting
