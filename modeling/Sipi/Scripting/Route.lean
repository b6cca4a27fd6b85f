import Sipi.Serve.Sink

/-!
# Lua routes

`scripting/rust/entry.rs` runs the script of a route in a fresh virtual machine, after the init script, and
`server-rs/src/routes.rs` connects what it prints to the response.

## Honest scope

Sending an image is not told apart from `print`. The hook that stops a script after its deadline is left out: a
script that runs on is killed at its end all the same.
-/

namespace Sipi.Scripting

open Sipi.Iiif Sipi.Serve Sipi.Theory

/-! ### The surroundings -/

/-- What `try_send` answers. -/
inductive TrySend where
  | taken
  | full
  | closed
  deriving DecidableEq

/-- What happens outside of the thread. -/
structure Schedule where
  trySend : ℕ → TrySend
  elapsed : ℕ → ℕ

/-- The thread that runs a route. -/
structure Route where
  now : ℕ
  readings : ℕ
  tries : ℕ
  answers : List (TrySend × ℕ)
  outcomeTx : Bool
  outcomes : List Outcome
  items : List BodyItem
  status : ℕ
  headers : List Header
  cookies : List Str
  committed : Bool
  commit : Bool
  printed : List (Bytes × Bool)

/-- The thread at the start. -/
def Route.new : Route := ⟨0, 0, 0, [], true, [], [], 200, [], [], false, true, []⟩

namespace Route

/-- The chunks, as items of the body. -/
def chunks (r : Route) : List BodyItem := r.printed.map fun p => .chunk p.1

/-- `Instant::now()`. -/
def tick (sched : Schedule) (r : Route) : Route :=
  { r with now := r.now + sched.elapsed r.readings, readings := r.readings + 1 }

/-- The channel has answered. -/
def answered (a : TrySend) (r : Route) : Route :=
  { r with tries := r.tries + 1, answers := r.answers ++ [(a, r.now)] }

/-- The channel is full, and the clock is read. -/
def refused (sched : Schedule) (r : Route) : Route := (r.tick sched).answered .full

/-- `sleep`. -/
def sleep (r : Route) : Route := { r with now := r.now + 5 }

/-- The loop of `send_body_until`. -/
def sendLoop (sched : Schedule) (item : BodyItem) (deadline : ℕ) : ℕ → Route → Bool × Route
  | fuel, r =>
    match sched.trySend r.tries with
    | .taken => (true, { r.answered .taken with items := r.items ++ [item] })
    | .closed => (false, r.answered .closed)
    | .full =>
      if deadline ≤ (r.refused sched).now then (false, r.refused sched)
      else
        match fuel with
        | 0 => (false, r.refused sched)
        | fuel + 1 => sendLoop sched item deadline fuel (r.refused sched).sleep

/-- `send_body_until`, and whether it succeeded. -/
def sendBodyUntil (sched : Schedule) (item : BodyItem) (deadline : ℕ) (r : Route) : Bool × Route :=
  sendLoop sched item deadline (deadline - r.now) r

/-- The `commit` closure. -/
def sendHead (status : ℕ) (headers : List Header) (r : Route) : Route :=
  if r.outcomeTx then { r with outcomeTx := false, outcomes := r.outcomes ++ [.streamHead status headers] } else r

/-- A response without a body. -/
def complete (status : ℕ) (headers : List Header) (r : Route) : Route :=
  if r.outcomeTx then { r with outcomeTx := false, outcomes := r.outcomes ++ [.complete status headers] } else r

/-- The headers, with the cookies rendered in. -/
def allHeaders (r : Route) : List Header := r.headers ++ r.cookies.map fun c => ("Set-Cookie".toList, c)

/-- `head_snapshot`. -/
def headSnapshot (r : Route) : ℕ × List Header := (r.status, r.allHeaders)

/-- The head is committed, unless it was. -/
def commitHead (r : Route) : Route :=
  if r.committed then r
  else if r.commit then
    { r with committed := true, headers := [], cookies := [], commit := false }.sendHead r.status r.allHeaders
  else { r with committed := true, headers := [], cookies := [] }

/-- `ResponseWriter::write`. -/
def write (sched : Schedule) (deadline : ℕ) (data : Bytes) (r : Route) : Bool × Route :=
  let (sent, r) := r.commitHead.sendBodyUntil sched (.chunk data) deadline
  (sent, { r with printed := r.printed ++ [(data, sent)] })

end Route

/-- A Lua value, as far as printing it matters. -/
inductive LuaValue where
  | string (bytes : Bytes)
  | number (bytes : Bytes)
  | other

/-- What is printed of a value. -/
def LuaValue.bytes? : LuaValue → Option Bytes
  | .string bytes => some bytes
  | .number bytes => some bytes
  | .other => none

/-- A call of a binding. -/
inductive LuaCall where
  | print (args : List LuaValue)
  | sendStatus (status : Option ℤ)
  | sendHeader (header : Option Header)
  | sendCookie (cookie : Option Str)
  | other

/-- What a script gets back from a binding. -/
inductive Reply where
  | succeeded
  | failed
  | raised
  deriving DecidableEq

/-- The deadlines. -/
structure Deadlines where
  write : ℕ
  vm : ℕ

namespace Route

/-- The loop of `print`. -/
def print (sched : Schedule) (deadline : ℕ) : List LuaValue → Route → Reply × Route
  | [], r => (.succeeded, r)
  | arg :: args, r =>
    match arg.bytes? with
    | none => print sched deadline args r
    | some bytes =>
      match r.write sched deadline bytes with
      | (true, r) => print sched deadline args r
      | (false, r) => (.failed, r)

/-- What a binding does. -/
def respond (sched : Schedule) (deadline : ℕ) : LuaCall → Route → Reply × Route
  | .print args, r => r.print sched deadline args
  | .sendStatus status, r => (.succeeded, { r with status := (max 0 (min 999 (status.getD 200))).toNat })
  | .sendHeader (some header), r => (.succeeded, { r with headers := r.headers ++ [header] })
  | .sendHeader none, r => (.failed, r)
  | .sendCookie (some cookie), r => (.succeeded, { r with cookies := r.cookies ++ [cookie] })
  | .sendCookie none, r => (.failed, r)
  | .other, r => (.succeeded, r)

/-- A binding, after a look at the deadline. -/
def checked (sched : Schedule) (d : Deadlines) (call : LuaCall) (r : Route) : Reply × Route :=
  if d.vm ≤ (r.tick sched).now then (.raised, r.tick sched) else (r.tick sched).respond sched d.write call

end Route

/-! ### The virtual machine -/

/-- How Lua code ends. -/
inductive Ending where
  | returned
  | errored
  | outOfMemory
  deriving DecidableEq

/-- Lua code that is being run. -/
abbrev Running (σ : Type) := Interaction LuaCall (fun _ => Reply) (Ending × σ)

/-- Lua code. -/
abbrev Script (σ : Type) := σ → Running σ

/-- `RuntimeError`. -/
inductive RuntimeError where
  | killed
  | setup
  | script
  deriving DecidableEq

/-- `RouteFailure`. -/
inductive RouteFailure where
  | notFound
  | killed
  | error
  deriving DecidableEq

/-- `route_failure`. -/
def routeFailure : RuntimeError → RouteFailure
  | .killed => .killed
  | .setup => .error
  | .script => .error

/-- `RequestVm::run`. -/
def vmRun {σ : Type} (sched : Schedule) (d : Deadlines) (code : Running σ) (r : Route) :
    Except RuntimeError σ × Route :=
  let ((ending, vm), r) := code.run (Route.checked sched d) r
  let r := r.tick sched
  if d.vm ≤ r.now then (.error .killed, r)
  else
    match ending with
    | .returned => (.ok vm, r)
    | .errored => (.error .script, r)
    | .outOfMemory => (.error .killed, r)

/-- A file, as it is loaded. -/
inductive Loaded (α : Type) where
  | notFound
  | failed
  | found (a : α)

/-- `LuaEnv`, with states in `σ`. -/
structure LuaEnv (σ : Type) where
  builds : Bool
  fresh : σ
  init : Option (Loaded (Script σ))
  exec : Bytes → Script σ
  timeout : ℕ

/-- The script of a route, by its extension. -/
inductive RouteScript (σ : Type) where
  | lua (file : Loaded (Script σ))
  | elua (file : Loaded Bytes)
  | other

/-- The file of the script is missing. -/
def RouteScript.Missing {σ : Type} : RouteScript σ → Prop
  | .lua .notFound => True
  | .elua .notFound => True
  | _ => False

section
variable {σ : Type} (sched : Schedule)

/-- `vm_with_bindings`, and the deadline. -/
def vmWithBindings (env : LuaEnv σ) (writeDeadline : ℕ) (r : Route) : Except RuntimeError (σ × Deadlines) × Route :=
  let r := r.tick sched
  let d : Deadlines := ⟨writeDeadline, r.now + env.timeout⟩
  if env.builds = false then (.error .setup, r)
  else
    match env.init with
    | none => (.ok (env.fresh, d), r)
    | some .notFound => (.error .setup, r)
    | some .failed => (.error .setup, r)
    | some (.found init) =>
      match vmRun sched d (init env.fresh) r with
      | (.ok vm, r) => (.ok (vm, d), r)
      | (.error e, r) => (.error e, r)

/-- `find`: what is before `needle`, and after. -/
def find (needle : Bytes) : Bytes → Option (Bytes × Bytes)
  | [] => none
  | b :: bs =>
    if needle.isPrefixOf (b :: bs) then some ([], (b :: bs).drop needle.length)
    else (find needle bs).map fun p => (b :: p.1, p.2)

/-- `<lua>`. -/
def openTag : Bytes := [0x3c, 0x6c, 0x75, 0x61, 0x3e]

/-- `</lua>`. -/
def closeTag : Bytes := [0x3c, 0x2f, 0x6c, 0x75, 0x61, 0x3e]

/-- HTML is written if there is any. -/
def writeHtml (d : Deadlines) (html : Bytes) (r : Route) : Bool × Route :=
  if html = [] then (true, r) else r.write sched d.write html

/-- The HTML after the last piece of code. -/
def writeTail (d : Deadlines) (tail : Bytes) (r : Route) : Except RouteFailure Unit × Route :=
  match writeHtml sched d tail r with
  | (true, r) => (.ok (), r)
  | (false, r) => (.error .error, r)

/-- A round of `run_elua`. -/
def eluaRound (env : LuaEnv σ) (d : Deadlines) (next : Bytes → σ → Route → Except RouteFailure Unit × Route)
    (code : Bytes) (vm : σ) (r : Route) : Except RouteFailure Unit × Route :=
  match find openTag code with
  | none => writeTail sched d code r
  | some (html, rest) =>
    match writeHtml sched d html r with
    | (false, r) => (.error .error, r)
    | (true, r) =>
      match find closeTag rest with
      | none =>
        -- an unterminated chunk is run, and then fails the route
        match vmRun sched d (env.exec rest vm) r with
        | (.ok _, r) => (.error .error, r)
        | (.error e, r) => (.error (routeFailure e), r)
      | some (chunk, rest) =>
        match vmRun sched d (env.exec chunk vm) r with
        | (.ok vm, r) => next rest vm r
        | (.error e, r) => (.error (routeFailure e), r)

/-- The loop of `run_elua`. -/
def eluaLoop (env : LuaEnv σ) (d : Deadlines) : ℕ → Bytes → σ → Route → Except RouteFailure Unit × Route
  | 0, code, _, r => writeTail sched d code r
  | fuel + 1, code, vm, r => eluaRound sched env d (eluaLoop env d fuel) code vm r

/-- `run_elua`, on a file that could be read. -/
def runElua (env : LuaEnv σ) (d : Deadlines) (code : Bytes) : σ → Route → Except RouteFailure Unit × Route :=
  eluaLoop sched env d code.length code

/-- The script, once the machine is there. -/
def runScript (env : LuaEnv σ) (d : Deadlines) (script : RouteScript σ) (vm : σ) (r : Route) :
    Except RouteFailure Unit × Route :=
  match script with
  | .lua .notFound => (.error .notFound, r)
  | .lua .failed => (.error .error, r)
  | .lua (.found chunk) =>
    match vmRun sched d (chunk vm) r with
    | (.ok _, r) => (.ok (), r)
    | (.error e, r) => (.error (routeFailure e), r)
  | .elua .notFound => (.error .notFound, r)
  | .elua .failed => (.error .error, r)
  | .elua (.found code) => runElua sched env d code vm r
  | .other => (.error .error, r)

/-- `RouteOutcome`. -/
structure RouteOutcome where
  result : Except RouteFailure Unit
  committed : Bool
  head : ℕ × List Header

/-- `LuaEnv::run_route`. -/
def runRoute (env : LuaEnv σ) (script : RouteScript σ) (writeDeadline : ℕ) (r : Route) : RouteOutcome × Route :=
  match vmWithBindings sched env writeDeadline r with
  | (.error e, r) => (⟨.error (routeFailure e), false, (500, [])⟩, r)
  | (.ok (vm, d), r) =>
    let (result, r) := runScript sched env d script vm r
    (⟨result, r.committed, r.headSnapshot⟩, r)

/-- The abort of a body, and whether it was sent. -/
def sendAbort (r : Route) : Bool × Route :=
  (r.tick sched).sendBodyUntil sched .abort ((r.tick sched).now + 2000)

/-- How a failure is reported after the start. -/
def abortOr (outcome : RouteOutcome) (status : ℕ) (r : Route) : Route :=
  if outcome.committed then (sendAbort sched r).2 else r.complete status []

/-- The `match` of `run_lua_route_blocking`. -/
def finish (outcome : RouteOutcome) (r : Route) : Route :=
  match outcome.result with
  | .ok () => r.complete (mapStatusU16 outcome.head.1) outcome.head.2
  | .error .notFound => r.complete 404 []
  | .error .killed => abortOr sched outcome 500 r
  | .error .error => abortOr sched outcome 500 r

/-- The clock is read for `write_deadline`. -/
def started : Route := Route.new.tick sched

/-- The script with its outcome. -/
def ran (env : LuaEnv σ) (script : RouteScript σ) : RouteOutcome × Route :=
  runRoute sched env script ((started sched).now + env.timeout) (started sched)

/-- `run_lua_route_blocking`. -/
def runLuaRouteBlocking (env : LuaEnv σ) (script : RouteScript σ) : Route :=
  finish sched (ran sched env script).1 (ran sched env script).2

end

/-! ### Sending -/

variable {r : Route}

section
variable {sched : Schedule} {item : BodyItem} {deadline : ℕ}

namespace Route

theorem refused_now (sched : Schedule) (r : Route) : (r.refused sched).now = r.now + sched.elapsed r.readings := rfl

theorem sleep_now (r : Route) : r.sleep.now = r.now + 5 := rfl

theorem sendLoop_fuel {fuel fuel' : ℕ} (h : deadline - r.now ≤ fuel) (h' : deadline - r.now ≤ fuel') :
    r.sendLoop sched item deadline fuel = r.sendLoop sched item deadline fuel' := by
  induction fuel generalizing fuel' r with
  | zero =>
    unfold sendLoop
    cases sched.trySend r.tries with
    | taken | closed => rfl
    | full => rw [if_pos (by rw [refused_now]; omega), if_pos (by rw [refused_now]; omega)]
  | succ fuel ih =>
    unfold sendLoop
    cases sched.trySend r.tries with
    | taken | closed => rfl
    | full =>
      by_cases hl : deadline ≤ (r.refused sched).now
      · rw [if_pos hl, if_pos hl]
      · have hn := refused_now sched r
        have hs := sleep_now (r.refused sched)
        obtain ⟨fuel', rfl⟩ : ∃ n, fuel' = n + 1 := ⟨fuel' - 1, by omega⟩
        rw [if_neg hl, if_neg hl]
        exact ih (by omega) (by omega)

theorem sendBodyUntil_eq (r : Route) :
    r.sendBodyUntil sched item deadline =
      match sched.trySend r.tries with
      | .taken => (true, { r.answered .taken with items := r.items ++ [item] })
      | .closed => (false, r.answered .closed)
      | .full =>
        if deadline ≤ (r.refused sched).now then (false, r.refused sched)
        else (r.refused sched).sleep.sendBodyUntil sched item deadline := by
  have hn := refused_now sched r
  have hs := sleep_now (r.refused sched)
  unfold sendBodyUntil
  rw [sendLoop_fuel (le_refl _) (Nat.le_succ _), sendLoop]
  cases sched.trySend r.tries with
  | taken | closed => rfl
  | full =>
    dsimp only
    split_ifs with hl
    · rfl
    · exact sendLoop_fuel (by omega) le_rfl

/-- The same thread at a later time. -/
def later (r : Route) (now readings tries : ℕ) (log : List (TrySend × ℕ)) : Route :=
  { r with now, readings, tries, answers := r.answers ++ log }

/-- The channel is closed, or full when it is late. -/
def GivesUp (deadline : ℕ) (a : TrySend × ℕ) : Prop := a.1 = .closed ∨ (a.1 = .full ∧ deadline ≤ a.2)

theorem sendBodyUntil_cases (sched : Schedule) (item : BodyItem) (deadline : ℕ) (r : Route) :
    ∃ now readings tries log sent, r.sendBodyUntil sched item deadline =
        (sent, { r.later now readings tries log with items := r.items ++ if sent then [item] else [] }) ∧
      (sent = true ↔ ∀ a ∈ log, ¬ GivesUp deadline a) := by
  induction hf : deadline - r.now using Nat.strong_induction_on generalizing r with
  | _ n ih =>
    have hn := refused_now sched r
    have hsl := sleep_now (r.refused sched)
    rw [sendBodyUntil_eq]
    cases hs : sched.trySend r.tries with
    | taken => exact ⟨r.now, r.readings, r.tries + 1, [(.taken, r.now)], true, rfl, by simp [GivesUp]⟩
    | closed =>
      refine ⟨r.now, r.readings, r.tries + 1, [(.closed, r.now)], false, ?_, by simp [GivesUp]⟩
      simp [answered, later]
    | full =>
      by_cases hl : deadline ≤ (r.refused sched).now
      · refine ⟨(r.refused sched).now, r.readings + 1, r.tries + 1, [(.full, (r.refused sched).now)], false, ?_, ?_⟩
        · simp only [if_pos hl]
          simp [refused, answered, later, tick]
        · simp [GivesUp, hl]
      · obtain ⟨now, readings, tries, log, sent, heq, hiff⟩ := ih _ (by omega) (r.refused sched).sleep rfl
        refine ⟨now, readings, tries, (.full, (r.refused sched).now) :: log, sent, ?_, ?_⟩
        · simp only [if_neg hl, heq]
          simp [refused, answered, later, tick, sleep]
        · rw [hiff, List.forall_mem_cons, and_iff_right (by simpa [GivesUp] using hl)]

@[simp] theorem commitHead_answers (r : Route) : r.commitHead.answers = r.answers := by
  unfold commitHead sendHead
  split_ifs <;> rfl

@[simp] theorem commitHead_items (r : Route) : r.commitHead.items = r.items := by
  unfold commitHead sendHead
  split_ifs <;> rfl

@[simp] theorem commitHead_printed (r : Route) : r.commitHead.printed = r.printed := by
  unfold commitHead sendHead
  split_ifs <;> rfl

theorem write_cases (sched : Schedule) (deadline : ℕ) (data : Bytes) (r : Route) :
    ∃ now readings tries log sent,
      r.write sched deadline data =
        (sent, { r.commitHead.later now readings tries log with
          items := r.items ++ if sent then [.chunk data] else []
          printed := r.printed ++ [(data, sent)] }) ∧
      (sent = true ↔ ∀ a ∈ log, ¬ GivesUp deadline a) := by
  obtain ⟨now, readings, tries, log, sent, heq, hiff⟩ :=
    sendBodyUntil_cases sched (.chunk data) deadline r.commitHead
  refine ⟨now, readings, tries, log, sent, ?_, hiff⟩
  rw [write, heq]
  simp [later]

end Route

end

variable {code : Bytes}

theorem find_length {needle before after : Bytes} (h : find needle code = some (before, after)) :
    before.length + needle.length + after.length = code.length := by
  induction code generalizing before after with
  | nil => cases h
  | cons b bs ih =>
    rw [find] at h
    split_ifs at h with hs
    · cases h
      have hle := (List.isPrefixOf_iff_prefix.1 hs).length_le
      rw [List.length_drop, List.length_nil]
      omega
    · obtain ⟨p, hp, heq⟩ := Option.map_eq_some_iff.1 h
      cases heq
      have := ih hp
      rw [List.length_cons, List.length_cons]
      omega

section
variable {σ : Type} {sched : Schedule} {env : LuaEnv σ} {d : Deadlines}

theorem eluaRound_congr {next next' : Bytes → σ → Route → Except RouteFailure Unit × Route}
    (h : ∀ rest : Bytes, rest.length < code.length → ∀ vm r, next rest vm r = next' rest vm r) (vm : σ) (r : Route) :
    eluaRound sched env d next code vm r = eluaRound sched env d next' code vm r := by
  unfold eluaRound
  cases ho : find openTag code with
  | none => rfl
  | some p =>
    have hl := find_length ho
    dsimp only
    cases hh : writeHtml sched d p.1 r with
    | mk sent r =>
      cases sent with
      | false => rfl
      | true =>
        cases hc : find closeTag p.2 with
        | none => rfl
        | some q =>
          have hl' := find_length hc
          have hr : q.2.length < code.length := by
            have : openTag.length = 5 := rfl
            omega
          dsimp only
          cases hrn : vmRun sched d (env.exec q.1 vm) r with
          | mk result r =>
            cases result with
            | ok vm => exact h q.2 hr vm r
            | error e => rfl

theorem eluaLoop_fuel {fuel fuel' : ℕ} (h : code.length ≤ fuel) (h' : code.length ≤ fuel') (vm : σ)
    (r : Route) : eluaLoop sched env d fuel code vm r = eluaLoop sched env d fuel' code vm r := by
  induction fuel generalizing fuel' code vm r with
  | zero =>
    obtain rfl := List.length_eq_zero_iff.1 (Nat.le_zero.1 h)
    cases fuel' <;> rfl
  | succ fuel ih =>
    cases fuel' with
    | zero =>
      obtain rfl := List.length_eq_zero_iff.1 (Nat.le_zero.1 h')
      rfl
    | succ fuel' => exact eluaRound_congr (fun rest hr => ih (by omega) (by omega)) vm r

theorem runElua_eq (code : Bytes) (vm : σ) (r : Route) :
    runElua sched env d code vm r = eluaRound sched env d (runElua sched env d) code vm r := by
  rw [runElua, eluaLoop_fuel le_rfl (Nat.le_succ _)]
  exact eluaRound_congr (fun rest hr => eluaLoop_fuel (by omega) le_rfl) vm r

end

/-! ### What every run keeps -/

theorem vmRun_snd {σ : Type} (sched : Schedule) (d : Deadlines) (code : Running σ) (r : Route) :
    (vmRun sched d code r).2 = (code.run (Route.checked sched d) r).2.tick sched := by
  unfold vmRun
  dsimp only
  split_ifs
  · rfl
  · split <;> rfl

variable {deadline : ℕ}

theorem deadlines_of_setup {σ : Type} {sched : Schedule} {env : LuaEnv σ} {vm : σ}
    {d : Deadlines} (h : (vmWithBindings sched env deadline r).1 = .ok (vm, d)) :
    d = ⟨deadline, (r.tick sched).now + env.timeout⟩ := by
  unfold vmWithBindings at h
  dsimp only at h
  split_ifs at h
  split at h
  · cases h; rfl
  · cases h
  · cases h
  · split at h
    · cases h; rfl
    · cases h

/-- It holds whatever a script does. -/
structure Kept (sched : Schedule) (deadline : ℕ) (I : Route → Prop) : Prop where
  tick : ∀ {r}, I r → I (r.tick sched)
  head : ∀ {r : Route} (status : ℕ) (headers : List Header) (cookies : List Str), I r →
    I { r with status, headers, cookies }
  write : ∀ {r : Route} (data : Bytes), I r → I (r.write sched deadline data).2

namespace Kept

variable {σ : Type} {sched : Schedule} {d : Deadlines} {I : Route → Prop} {env : LuaEnv σ}

theorem print (h : Kept sched deadline I) (args : List LuaValue) (hr : I r) : I (r.print sched deadline args).2 := by
  induction args generalizing r with
  | nil => exact hr
  | cons arg args ih =>
    unfold Route.print
    cases arg.bytes? with
    | none => exact ih hr
    | some bytes =>
      have hw := h.write bytes hr
      cases hs : r.write sched deadline bytes with
      | mk sent r' =>
        rw [hs] at hw
        simp only [hs]
        cases sent with
        | true => exact ih hw
        | false => exact hw

theorem respond (h : Kept sched deadline I) (call : LuaCall) (hr : I r) : I (r.respond sched deadline call).2 := by
  cases call with
  | print args => exact h.print args hr
  | sendStatus status => exact h.head _ r.headers r.cookies hr
  | sendHeader header =>
    cases header with
    | none => exact hr
    | some header => exact h.head r.status _ r.cookies hr
  | sendCookie cookie =>
    cases cookie with
    | none => exact hr
    | some cookie => exact h.head r.status r.headers _ hr
  | other => exact hr

section
variable (h : Kept sched d.write I)
include h

theorem checked (call : LuaCall) (hr : I r) : I (r.checked sched d call).2 := by
  unfold Route.checked
  split_ifs
  · exact h.tick hr
  · exact h.respond call (h.tick hr)

theorem vmRun (code : Running σ) (hr : I r) : I (vmRun sched d code r).2 := by
  rw [vmRun_snd]
  exact h.tick (Interaction.run_invariant I (fun call r hr => h.checked call hr) code hr)

theorem writeHtml (ht : Bytes) (hr : I r) : I (writeHtml sched d ht r).2 := by
  unfold Scripting.writeHtml
  split_ifs
  · exact hr
  · exact h.write ht hr

theorem writeTail (tail : Bytes) (hr : I r) : I (writeTail sched d tail r).2 := by
  have hh := h.writeHtml tail hr
  unfold Scripting.writeTail
  split
  all_goals
    next heq => rw [heq] at hh; exact hh

theorem eluaRound {next : Bytes → σ → Route → Except RouteFailure Unit × Route}
    (hn : ∀ rest vm r, I r → I (next rest vm r).2) (code : Bytes) (vm : σ) (hr : I r) :
    I (eluaRound sched env d next code vm r).2 := by
  unfold Scripting.eluaRound
  split
  · exact h.writeTail code hr
  · next ht rest _ =>
    have hh := h.writeHtml ht hr
    split
    · next heq => rw [heq] at hh; exact hh
    · next r' heq =>
      rw [heq] at hh
      split
      · have hrn := h.vmRun (env.exec rest vm) hh
        split
        all_goals
          next heq => rw [heq] at hrn; exact hrn
      · next chunk rest' _ =>
        have hrn := h.vmRun (env.exec chunk vm) hh
        split
        · next heq => rw [heq] at hrn; exact hn rest' _ _ hrn
        · next heq => rw [heq] at hrn; exact hrn

theorem eluaLoop (fuel : ℕ) (code : Bytes) (vm : σ) (hr : I r) : I (eluaLoop sched env d fuel code vm r).2 := by
  induction fuel generalizing code vm r with
  | zero => exact h.writeTail code hr
  | succ fuel ih => exact h.eluaRound (fun rest vm r hr => ih rest vm hr) code vm hr

theorem runScript (script : RouteScript σ) (vm : σ) (hr : I r) : I (runScript sched env d script vm r).2 := by
  unfold Scripting.runScript
  split
  · exact hr
  · exact hr
  · next chunk =>
    have hrn := h.vmRun (chunk vm) hr
    split
    all_goals
      next heq => rw [heq] at hrn; exact hrn
  · exact hr
  · exact hr
  · exact h.eluaLoop _ _ vm hr
  · exact hr

end

theorem vmWithBindings (h : Kept sched deadline I) (hr : I r) : I (vmWithBindings sched env deadline r).2 := by
  have ht := h.tick hr
  unfold Scripting.vmWithBindings
  dsimp only
  split_ifs
  · exact ht
  · split
    · exact ht
    · exact ht
    · exact ht
    · next init _ =>
      have hrn := vmRun (d := ⟨deadline, (r.tick sched).now + env.timeout⟩) h (init env.fresh) ht
      split
      all_goals
        next heq => rw [heq] at hrn; exact hrn

theorem runRoute (h : Kept sched deadline I) (script : RouteScript σ) (hr : I r) :
    I (runRoute sched env script deadline r).2 := by
  have hs : I (Scripting.vmWithBindings sched env deadline r).2 := h.vmWithBindings hr
  unfold Scripting.runRoute
  split
  · next heq => rw [heq] at hs; exact hs
  · next vm d r' heq =>
    rw [heq] at hs
    obtain rfl := deadlines_of_setup (congrArg Prod.fst heq)
    exact runScript (d := ⟨deadline, _⟩) h script vm hs

end Kept

end Sipi.Scripting
