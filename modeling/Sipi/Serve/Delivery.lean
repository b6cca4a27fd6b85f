import Sipi.Serve.Sink

/-!
# Is a failed body presented as complete?

Once the head of a response is out, only `BodyAbort` tells the client that something went wrong.
-/

namespace Sipi.Serve

open Sipi.Iiif Sipi.Theory

/-- A client, and what it took. -/
structure Client where
  patience : Option ℕ
  written : List Bytes
  received : List Bytes

namespace Client

/-- A client to which nothing has been written. -/
def new (patience : Option ℕ) : Client := ⟨patience, [], []⟩

/-- A chunk is written. An empty one needs no room. -/
def write (chunk : Bytes) (c : Client) : Bool × Client :=
  if chunk = [] then (true, { c with written := c.written ++ [chunk] })
  else
    match c.patience with
    | none => (true, { c with written := c.written ++ [chunk], received := c.received ++ [chunk] })
    | some 0 => (false, { c with written := c.written ++ [chunk] })
    | some (n + 1) => (true, ⟨some n, c.written ++ [chunk], c.received ++ [chunk]⟩)

/-- The calls of a producer. -/
def handle : Call → Client → Bool × Client
  | .write chunk, c => c.write chunk
  | .cancelled, c => (decide (c.patience = some 0), c)

end Client

/-- How a body ends. -/
inductive Ended where
  | succeeded
  | failed
  | threw
  deriving DecidableEq

/-- A return code. -/
def Ended.ofCode (code : ℤ) : Ended := if code = 0 then .succeeded else .failed

/-- The end of a producer. -/
def Produced.ended : Produced → Ended
  | .returned code => .ofCode code
  | .threw => .threw

/-- How the body of a response ends. -/
def Body.deliver (patience : Option ℕ) : Body → Ended × Client
  | .empty => (.succeeded, .new patience)
  | .file f =>
    (.ofCode ((streamFileRegion f).run Client.handle (.new patience)).1,
      ((streamFileRegion f).run Client.handle (.new patience)).2)
  | .stream producer =>
    ((producer.run Client.handle (.new patience)).1.ended, (producer.run Client.handle (.new patience)).2)

/-- The body; a response that is not built has none. -/
def Building.body : Building → Body
  | .refused _ | .threw => .empty
  | .built response => response.body

/-- An error status, delivered whole. -/
def Visible.IsError : Visible → Prop
  | .complete status _ => 400 ≤ status
  | .stream .. => False

/-- A stream that ends abnormally. -/
def Visible.IsAborted : Visible → Prop
  | .complete .. => False
  | .stream _ _ _ aborted => aborted = true

/-- A success status and a clean end. -/
def Visible.IsCleanSuccess : Visible → Prop
  | .complete status _ => 200 ≤ status ∧ status < 300
  | .stream status _ _ aborted => 200 ≤ status ∧ status < 300 ∧ aborted = false

/-- The bytes of the body. -/
def Visible.bytes : Visible → Bytes
  | .complete .. => []
  | .stream _ _ bytes _ => bytes

/-- **No failed body is seen as complete.** -/
structure Presented (building : Building) (patience : Option ℕ) : Prop where
  oneOutcome : (serveStreaming building patience).outcomes.length = 1
  failure : ∀ v, (serveStreaming building patience).visible = some v →
    (building.body.deliver patience).1 ≠ .succeeded → v.IsError ∨ v.IsAborted
  success : ∀ v, (serveStreaming building patience).visible = some v → v.IsCleanSuccess →
    (building.body.deliver patience).1 = .succeeded ∧
      v.bytes = (building.body.deliver patience).2.written.flatten

/-- The reads cover what remains of a region. -/
def covers : ℕ → List ReadResult → Bool
  | 0, _ => true
  | _ + 1, [] => false
  | n + 1, .interrupted :: rs => covers (n + 1) rs
  | _ + 1, .failed :: _ => false
  | n + 1, .data bytes :: rs =>
    readUpTo (n + 1) bytes ≠ [] && covers (n + 1 - (readUpTo (n + 1) bytes).length) rs

/-- The file can be read to the end of the region. -/
def FileBody.Readable (f : FileBody) : Prop :=
  f.opens = true ∧ (0 < f.offset → f.seeks = true) ∧ covers f.length f.reads = true

/-- The status as the sink keeps it. -/
def ServeResponse.status (response : ServeResponse) : ℕ := (response.httpStatus % 2 ^ 16).toNat

/-- The body can be had, or fails at once. -/
def ServeResponse.Sound (response : ServeResponse) (patience : Option ℕ) : Prop :=
  match response.body with
  | .empty => True
  | .file f => f.Readable
  | .stream producer =>
    (producer.run Client.handle (.new patience)).1 = .returned 0 ∨
      ((producer.run Client.handle (.new patience)).2.written = [] ∧
        ((producer.run Client.handle (.new patience)).1 = .threw ∨ 400 ≤ mapStatusU16 response.status))

/-- Nobody sees it, or the body can be had. -/
def Building.Sound (building : Building) (patience : Option ℕ) : Prop :=
  match building with
  | .refused _ | .threw => True
  | .built response => (response.body.deliver patience).2.patience = some 0 ∨ response.Sound patience

variable {c : Client}

theorem Client.gone_of_write {chunk : Bytes} (h : (c.write chunk).1 = false) :
    (c.write chunk).2.patience = some 0 := by
  unfold Client.write at h ⊢
  split at h
  · cases h
  · next hc =>
    rw [if_neg hc]
    split at h
    · cases h
    · next hg => rw [hg]
    · cases h

theorem received_of_present {α : Type} (p : Program α) (patience : Option ℕ) :
    (p.run Client.handle (.new patience)).2.patience ≠ some 0 →
      (p.run Client.handle (.new patience)).2.received.flatten =
        (p.run Client.handle (.new patience)).2.written.flatten := by
  refine Interaction.run_invariant
    (fun c : Client => c.patience ≠ some 0 → c.received.flatten = c.written.flatten) (fun call c ih => ?_) p fun _ => rfl
  cases call with
  | cancelled => exact ih
  | write chunk =>
    show (c.write chunk).2.patience ≠ some 0 → (c.write chunk).2.received.flatten = (c.write chunk).2.written.flatten
    unfold Client.write
    split
    · next he =>
      intro hp
      simpa [he] using ih hp
    · split
      · next hs =>
        intro _
        simp [ih (by simp [hs])]
      · next hg => exact fun hp => absurd hg hp
      · next n hm =>
        intro _
        simp [ih (by simp [hm])]

theorem Body.received_of_present (b : Body) (patience : Option ℕ) (hp : (b.deliver patience).2.patience ≠ some 0) :
    (b.deliver patience).2.received.flatten = (b.deliver patience).2.written.flatten := by
  cases b with
  | empty => rfl
  | file f => exact Sipi.Serve.received_of_present _ patience hp
  | stream producer => exact Sipi.Serve.received_of_present _ patience hp

theorem streamLoop_eq_zero_iff (n : ℕ) (rs : List ReadResult)
    (hp : ((streamLoop n rs).run Client.handle c).2.patience ≠ some 0) :
    ((streamLoop n rs).run Client.handle c).1 = 0 ↔ covers n rs = true := by
  induction rs generalizing n c with
  | nil => cases n <;> simp [streamLoop, covers, Interaction.run]
  | cons r rs ih =>
    cases n with
    | zero => simp [streamLoop, covers, Interaction.run]
    | succ n =>
      cases r with
      | interrupted =>
        rw [streamLoop] at hp ⊢
        rw [covers]
        exact ih (n + 1) hp
      | failed => simp [streamLoop, covers, Interaction.run]
      | data bytes =>
        rw [streamLoop] at hp ⊢
        rw [covers]
        by_cases he : readUpTo (n + 1) bytes = []
        · simp [he, Interaction.run]
        · rw [if_neg he, Interaction.run] at hp ⊢
          cases hr : (Client.handle (.write (readUpTo (n + 1) bytes)) c).1 with
          | true =>
            rw [hr, if_pos rfl] at hp
            rw [if_pos rfl, ih _ hp]
            simp [he]
          | false =>
            rw [hr, if_neg Bool.false_ne_true] at hp
            exact absurd (Client.gone_of_write hr) hp

theorem streamFileRegion_eq_zero_iff (f : FileBody)
    (hp : ((streamFileRegion f).run Client.handle c).2.patience ≠ some 0) :
    ((streamFileRegion f).run Client.handle c).1 = 0 ↔ f.Readable := by
  unfold streamFileRegion at hp ⊢
  unfold FileBody.Readable
  split at hp
  · next ho => simp [ho, Interaction.run]
  · next ho =>
    rw [if_neg ho]
    split at hp
    · next hs =>
      rw [if_pos hs]
      simp [hs, Interaction.run]
    · next hs =>
      rw [if_neg hs, streamLoop_eq_zero_iff f.length f.reads hp]
      simp_all

/-! ### The sink simulates the client -/

/-- The channel has what the client took. -/
structure Mirrors (s : StreamSink) (c : Client) : Prop where
  patience : s.patience = c.patience
  items : s.items = c.received.map .chunk

/-- The head is not out. -/
structure Waiting (status : ℕ) (headers : List Header) (s : StreamSink) : Prop where
  headSent : s.headSent = false
  outcomeTx : s.outcomeTx = true
  outcomes : s.outcomes = []
  status : s.status = status
  headers : s.headers = headers

/-- The head is out. -/
structure Committed (status : ℕ) (headers : List Header) (s : StreamSink) : Prop where
  headSent : s.headSent = true
  outcomes : s.outcomes = [.streamHead status headers]

section Simulation

variable {status : ℕ} {headers : List Header} {s : StreamSink} {c : Client}

theorem Waiting.sendHead (h : Waiting status headers s) : Committed status headers s.sendHead := by
  obtain ⟨hs, htx, ho, rfl, rfl⟩ := h
  unfold StreamSink.sendHead
  rw [if_neg (by simp [hs]), if_pos htx, ho]
  exact ⟨rfl, rfl⟩

theorem Committed.sendHead (h : Committed status headers s) : s.sendHead = s := if_pos h.headSent

theorem Mirrors.sendHead (h : Mirrors s c) : Mirrors s.sendHead c := by
  obtain ⟨hp, hi⟩ := h
  unfold StreamSink.sendHead
  split
  · exact ⟨hp, hi⟩
  · split <;> exact ⟨hp, hi⟩

theorem Mirrors.blockingSend (h : Mirrors s c) {chunk : Bytes} (hc : chunk ≠ []) :
    (s.blockingSend (.chunk chunk)).1 = (c.write chunk).1 ∧
      Mirrors (s.blockingSend (.chunk chunk)).2 (c.write chunk).2 := by
  obtain ⟨patience, written, received⟩ := c
  obtain ⟨hp, hi⟩ := h
  dsimp only at hp hi
  unfold StreamSink.blockingSend Client.write
  rw [if_neg hc, hp]
  rcases patience with _ | _ | n
  · exact ⟨rfl, rfl, by simp [hi]⟩
  · exact ⟨rfl, hp, hi⟩
  · exact ⟨rfl, rfl, by simp [hi]⟩

theorem Committed.blockingSend (h : Committed status headers s) (item : BodyItem) :
    Committed status headers (s.blockingSend item).2 := by
  unfold StreamSink.blockingSend
  split
  · exact ⟨h.headSent, h.outcomes⟩
  · exact h
  · exact ⟨h.headSent, h.outcomes⟩

/-- The head is out from the first write on. -/
def Follows (status : ℕ) (headers : List Header) (s : StreamSink) (c : Client) : Prop :=
  Mirrors s c ∧ (Waiting status headers s ∧ c.written = [] ∨ Committed status headers s ∧ c.written ≠ [])

theorem Client.written_write (chunk : Bytes) (c : Client) : (c.write chunk).2.written = c.written ++ [chunk] := by
  unfold Client.write
  split
  · rfl
  · split <;> rfl

theorem Follows.write (h : Follows status headers s c) (chunk : Bytes) :
    (s.cbWrite chunk).1 = (c.write chunk).1 ∧ Follows status headers (s.cbWrite chunk).2 (c.write chunk).2 := by
  obtain ⟨hm, hh⟩ := h
  have hs : Committed status headers s.sendHead := by
    rcases hh with ⟨hwt, -⟩ | ⟨hc, -⟩
    · exact hwt.sendHead
    · rwa [hc.sendHead]
  have hw : (c.write chunk).2.written ≠ [] := by simp [Client.written_write]
  unfold StreamSink.cbWrite
  split
  · next he =>
    have hcl : c.write chunk = (true, { c with written := c.written ++ [chunk] }) := if_pos he
    rw [hcl] at hw ⊢
    exact ⟨rfl, ⟨hm.sendHead.patience, hm.sendHead.items⟩, Or.inr ⟨hs, hw⟩⟩
  · next hch =>
    obtain ⟨hr, hm⟩ := hm.sendHead.blockingSend hch
    exact ⟨hr, hm, Or.inr ⟨hs.blockingSend _, hw⟩⟩

theorem stream_simulates {α : Type} (p : Program α) (h : Follows status headers s c) :
    (p.run StreamSink.handle s).1 = (p.run Client.handle c).1 ∧
      Follows status headers (p.run StreamSink.handle s).2 (p.run Client.handle c).2 := by
  refine Interaction.run_simulation (Follows status headers) (fun call s c h => ?_) p h
  cases call with
  | write chunk => exact h.write chunk
  | cancelled => exact ⟨by simp only [StreamSink.handle, Client.handle, StreamSink.cbCancelled, h.1.patience], h⟩

theorem streamLoop_simulates (n : ℕ) (rs : List ReadResult) (hm : Mirrors s c) (hc : Committed status headers s) :
    Mirrors ((streamLoop n rs).run StreamSink.handleSend s).2 ((streamLoop n rs).run Client.handle c).2 ∧
      Committed status headers ((streamLoop n rs).run StreamSink.handleSend s).2 := by
  induction rs generalizing n s c with
  | nil => cases n <;> exact ⟨hm, hc⟩
  | cons r rs ih =>
    cases n with
    | zero => exact ⟨hm, hc⟩
    | succ n =>
      cases r with
      | interrupted =>
        rw [streamLoop]
        exact ih (n + 1) hm hc
      | failed => exact ⟨hm, hc⟩
      | data bytes =>
        rw [streamLoop]
        by_cases he : readUpTo (n + 1) bytes = []
        · rw [if_pos he]
          exact ⟨hm, hc⟩
        · rw [if_neg he]
          obtain ⟨hr, hs⟩ := hm.blockingSend he
          have hc' := hc.blockingSend (.chunk (readUpTo (n + 1) bytes))
          rw [Interaction.run, Interaction.run,
            show (StreamSink.handleSend (.write (readUpTo (n + 1) bytes)) s).1 =
              (Client.handle (.write (readUpTo (n + 1) bytes)) c).1 from hr]
          cases (Client.handle (.write (readUpTo (n + 1) bytes)) c).1 with
          | true => exact ih _ hs hc'
          | false => exact ⟨hs, hc'⟩

theorem file_simulates (f : FileBody) (hm : Mirrors s c) (hw : Waiting status headers s) :
    Mirrors (s.cbSendFile f).2 ((streamFileRegion f).run Client.handle c).2 ∧
      Committed status headers (s.cbSendFile f).2 := by
  unfold StreamSink.cbSendFile streamFileRegion
  split
  · exact ⟨hm.sendHead, hw.sendHead⟩
  · split
    · exact ⟨hm.sendHead, hw.sendHead⟩
    · exact streamLoop_simulates f.length f.reads hm.sendHead hw.sendHead

end Simulation

/-! ### The outcome of a call -/

theorem foldl_cbAddHeader (hs : List Header) (s : StreamSink) :
    hs.foldl (fun s h => s.cbAddHeader h) s = { s with headers := s.headers ++ hs } := by
  induction hs generalizing s with
  | nil => simp
  | cons h hs ih =>
    rw [List.foldl_cons, ih]
    simp [StreamSink.cbAddHeader]

theorem setHead_new (response : ServeResponse) (patience : Option ℕ) :
    Waiting response.status response.headers ((StreamSink.new patience).setHead response) ∧
      Mirrors ((StreamSink.new patience).setHead response) (.new patience) := by
  unfold StreamSink.setHead
  rw [foldl_cbAddHeader]
  exact ⟨⟨rfl, rfl, rfl, rfl, rfl⟩, rfl, rfl⟩

variable {status : ℕ} {headers : List Header} {s : StreamSink}

theorem Committed.finish (h : Committed status headers s) (code : ℤ) : s.finish code = s :=
  if_neg fun hn => by simp [h.headSent] at hn

/-- The complete response in the tail of the call. -/
def tailOutcome (code : ℤ) (status : ℕ) (headers : List Header) : Outcome :=
  if code = 0 then .complete (mapStatusU16 status) headers else .complete (mapStatus code) []

theorem Waiting.finish (h : Waiting status headers s)
    (code : ℤ) : (s.finish code).outcomes = [tailOutcome code status headers] ∧
      (s.finish code).patience = s.patience := by
  obtain ⟨hs, htx, ho, rfl, rfl⟩ := h
  unfold StreamSink.finish
  rw [if_pos ⟨hs, htx⟩, ho]
  exact ⟨rfl, rfl⟩

theorem Committed.visible (h : Committed status headers s) (hm : Mirrors s c) :
    s.visible =
      if c.patience = some 0 then none
      else some (.stream (mapStatusU16 status) headers c.received.flatten false) := by
  have hb : ∀ cs : List Bytes, bytesOf (cs.map .chunk) = cs.flatten := by
    intro cs
    induction cs with
    | nil => rfl
    | cons chunk cs ih => rw [List.map_cons, bytesOf, ih, List.flatten_cons]
  unfold StreamSink.visible
  rw [h.outcomes, hm.patience, hm.items, hb]
  simp

theorem visible_complete (h : s.outcomes = [.complete status headers]) :
    s.visible = if s.patience = some 0 then none else some (.complete status headers) := by
  unfold StreamSink.visible
  rw [h]
  rfl

theorem serveStreaming_built (response : ServeResponse) (patience : Option ℕ) :
    serveStreaming (.built response) patience =
      (apply response (.new patience)).2.finish (if (apply response (.new patience)).1 then 0 else 500) := by
  unfold serveStreaming sipiServe
  dsimp only
  split <;> rfl

section Built

variable {response : ServeResponse} {patience : Option ℕ}

/-- The head is out, and what was taken is seen. -/
def ServeResponse.Streamed (response : ServeResponse) (patience : Option ℕ) : Prop :=
  (serveStreaming (.built response) patience).outcomes = [.streamHead response.status response.headers] ∧
    (serveStreaming (.built response) patience).visible =
      if (response.body.deliver patience).2.patience = some 0 then none
      else some (.stream (mapStatusU16 response.status) response.headers
        (response.body.deliver patience).2.received.flatten false)

theorem serve_file {f : FileBody} (hb : response.body = .file f) : response.Streamed patience := by
  obtain ⟨hw, hm⟩ := setHead_new response patience
  obtain ⟨hm, hc⟩ := file_simulates f hm hw
  have ha : apply response (.new patience) = (true, (((StreamSink.new patience).setHead response).cbSendFile f).2) := by
    unfold apply
    rw [hb]
  rw [ServeResponse.Streamed, serveStreaming_built, ha, hc.finish, hb]
  exact ⟨hc.outcomes, hc.visible hm⟩

theorem serve_stream {producer : Program Produced} (hb : response.body = .stream producer) :
    let ran := producer.run Client.handle (.new patience)
    let s := serveStreaming (.built response) patience
    (ran.2.written ≠ [] ∧ response.Streamed patience) ∨
    (ran.2.written = [] ∧ s.patience = ran.2.patience ∧
      s.outcomes = [tailOutcome (if ran.1 = .threw then 500 else 0) response.status response.headers]) := by
  intro ran s
  obtain ⟨hw, hm⟩ := setHead_new response patience
  obtain ⟨hr, hm, hh⟩ :=
    stream_simulates producer (c := .new patience) ⟨hm, Or.inl ⟨hw, rfl⟩⟩
  have ha : apply response (.new patience) =
      (decide (ran.1 ≠ .threw), (producer.run StreamSink.handle ((StreamSink.new patience).setHead response)).2) := by
    unfold apply
    rw [hb]
    dsimp only
    rw [← hr]
    generalize producer.run StreamSink.handle ((StreamSink.new patience).setHead response) = result
    obtain ⟨_ | _, s⟩ := result <;> rfl
  have hs : s = (producer.run StreamSink.handle ((StreamSink.new patience).setHead response)).2.finish
      (if ran.1 = .threw then 500 else 0) := by
    show serveStreaming (.built response) patience = _
    rw [serveStreaming_built, ha]
    by_cases ht : ran.1 = .threw <;> simp [ht]
  rw [ServeResponse.Streamed, show serveStreaming (.built response) patience = s from rfl, hs, hb]
  rcases hh with ⟨hw, hn⟩ | ⟨hc, hsm⟩
  · obtain ⟨ho, hp⟩ := hw.finish (if ran.1 = .threw then 500 else 0)
    exact Or.inr ⟨hn, hp.trans hm.patience, ho⟩
  · rw [hc.finish]
    exact Or.inl ⟨hsm, hc.outcomes, hc.visible hm⟩

theorem serve_empty (hb : response.body = .empty) :
    (serveStreaming (.built response) patience).outcomes =
      [.complete (mapStatusU16 response.status) response.headers] := by
  obtain ⟨hw, -⟩ := setHead_new response patience
  have ha : apply response (.new patience) = (true, (StreamSink.new patience).setHead response) := by
    unfold apply
    rw [hb]
  rw [serveStreaming_built, ha]
  exact (hw.finish 0).1

end Built

section Presented

variable {building : Building} {patience : Option ℕ}

section
variable (ho : (serveStreaming building patience).outcomes.length = 1)
include ho

theorem presented_of_gone
    (hg : (serveStreaming building patience).visible = none) : Presented building patience := by
  refine ⟨ho, fun v hv => ?_, fun v hv => ?_⟩
  · rw [hg] at hv
    cases hv
  · rw [hg] at hv
    cases hv

theorem presented_of_succeeded (he : (building.body.deliver patience).1 = .succeeded)
    (hb : ∀ v, (serveStreaming building patience).visible = some v →
      v.bytes = (building.body.deliver patience).2.written.flatten) : Presented building patience :=
  ⟨ho, fun _ _ hf => absurd he hf, fun v hv _ => ⟨he, hb v hv⟩⟩

theorem presented_of_error (hvs : (serveStreaming building patience).visible = some (.complete status headers))
    (he : 400 ≤ status) : Presented building patience := by
  refine ⟨ho, fun v hv _ => ?_, fun v hv hc => ?_⟩
  · rw [hvs] at hv
    cases hv
    exact Or.inl he
  · rw [hvs] at hv
    cases hv
    exact absurd hc.2 (by omega)

end

theorem presented_complete_iff (ho : (serveStreaming building patience).outcomes = [.complete status headers])
    (hw : (building.body.deliver patience).2.written = []) :
    Presented building patience ↔ (serveStreaming building patience).patience = some 0 ∨
      (building.body.deliver patience).1 = .succeeded ∨ 400 ≤ status := by
  have hon : (serveStreaming building patience).outcomes.length = 1 := by rw [ho]; rfl
  have hvs := visible_complete ho
  by_cases hg : (serveStreaming building patience).patience = some 0
  · rw [if_pos hg] at hvs
    exact iff_of_true (presented_of_gone hon hvs) (Or.inl hg)
  rw [if_neg hg] at hvs
  constructor
  · intro h
    by_contra hn
    rcases h.failure _ hvs (fun he => hn (Or.inr (Or.inl he))) with her | ha
    · exact hn (Or.inr (Or.inr her))
    · exact ha
  · rintro (h | h | h)
    · exact absurd h hg
    · refine presented_of_succeeded hon h fun v hv => ?_
      rw [hvs] at hv
      cases hv
      rw [hw]
      rfl
    · exact presented_of_error hon hvs h

end Presented

section Built

variable {response : ServeResponse} {patience : Option ℕ}

theorem presented_streamed_iff (h : response.Streamed patience) :
    Presented (.built response) patience ↔
      (response.body.deliver patience).2.patience = some 0 ∨ (response.body.deliver patience).1 = .succeeded := by
  obtain ⟨ho, hvs⟩ := h
  have hon : (serveStreaming (.built response) patience).outcomes.length = 1 := by rw [ho]; rfl
  by_cases hg : (response.body.deliver patience).2.patience = some 0
  · rw [if_pos hg] at hvs
    exact iff_of_true (presented_of_gone hon hvs) (Or.inl hg)
  rw [if_neg hg] at hvs
  constructor
  · intro h
    by_contra hn
    rcases h.failure _ hvs (fun he => hn (Or.inr he)) with he | ha
    · exact he
    · cases ha
  · intro h
    refine presented_of_succeeded hon (h.resolve_left hg) fun v hv => ?_
    rw [hvs] at hv
    cases hv
    exact response.body.received_of_present patience hg

theorem presented_file_iff {f : FileBody} (hb : response.body = .file f) :
    Presented (.built response) patience ↔ Building.Sound (.built response) patience := by
  rw [presented_streamed_iff (serve_file hb), Building.Sound, ServeResponse.Sound, hb]
  refine or_congr_right' fun hg => ?_
  show _ ↔ f.Readable
  rw [← streamFileRegion_eq_zero_iff f hg]
  simp [Body.deliver, Ended.ofCode]

theorem presented_stream_iff {producer : Program Produced} (hb : response.body = .stream producer) :
    Presented (.built response) patience ↔ Building.Sound (.built response) patience := by
  have he : (Body.deliver patience (.stream producer)).1 = .succeeded ↔
      (producer.run Client.handle (.new patience)).1 = .returned 0 := by
    simp only [Body.deliver]
    cases (producer.run Client.handle (.new patience)).1 with
    | returned code => simp [Produced.ended, Ended.ofCode]
    | threw => simp [Produced.ended]
  rw [Building.Sound, ServeResponse.Sound]
  rcases @serve_stream response patience producer hb with ⟨hw, hs⟩ | ⟨hn, hp, ho⟩
  · -- the head is out
    rw [presented_streamed_iff hs, hb, he]
    simp [hw]
  · -- nothing has been written: the call ends with a complete response
    have hd : (Building.built response).body = .stream producer := hb
    have hw : ((Building.built response).body.deliver patience).2.written = [] := by rw [hd]; exact hn
    cases hr : (producer.run Client.handle (.new patience)).1 with
    | threw =>
      rw [hr, if_pos rfl] at ho
      rw [presented_complete_iff ho hw, hb]
      exact iff_of_true (Or.inr (Or.inr (by decide))) (Or.inr (Or.inr ⟨hn, Or.inl hr⟩))
    | returned code =>
      rw [hr, if_neg (by simp)] at ho
      rw [presented_complete_iff ho hw, hd, he, hr, hp, hb]
      simp [hn, hr, Body.deliver]

end Built

/-- **When the client is told the truth about the body.** One outcome is sent in any case. -/
theorem presented_iff (building : Building) (patience : Option ℕ) :
    Presented building patience ↔ building.Sound patience := by
  cases building with
  | refused status =>
    have ho : (serveStreaming (.refused status) patience).outcomes = [.complete (mapStatus status.code) []] := by
      cases status <;> rfl
    rw [presented_complete_iff ho rfl]
    exact iff_of_true (Or.inr (Or.inl rfl)) trivial
  | threw =>
    have ho : (serveStreaming .threw patience).outcomes = [.complete 500 []] := rfl
    rw [presented_complete_iff ho rfl]
    exact iff_of_true (Or.inr (Or.inl rfl)) trivial
  | built response =>
    cases hb : response.body with
    | empty =>
      have hd : (Building.built response).body.deliver patience = (.succeeded, .new patience) := by
        rw [Building.body, hb, Body.deliver]
      rw [presented_complete_iff (serve_empty hb) (by rw [hd]; rfl), hd]
      exact iff_of_true (Or.inr (Or.inl rfl)) (Or.inr (by simp [ServeResponse.Sound, hb]))
    | file f => exact presented_file_iff hb
    | stream producer => exact presented_stream_iff hb

theorem failed_bodies_presented :
    ¬ Presented (.built ⟨200, [], .stream (produce (.call (.write [1, 2]) fun _ => .done .imageError) false)⟩) none ∧
      ¬ Presented (.built ⟨200, [], .stream (produce (.done .sipiError) false)⟩) none ∧
      ¬ Presented (.built ⟨200, [], .file ⟨true, true, [.data [1, 2]], 0, 5⟩⟩) none := by
  refine ⟨fun h => ?_, fun h => ?_, fun h => ?_⟩
  · rcases h.failure (.stream 200 [] [1, 2] false) (by decide) (by decide) with he | ha
    · exact he
    · cases ha
  · rcases h.failure (.complete 200 []) (by decide) (by decide) with he | ha
    · exact absurd (show 400 ≤ 200 from he) (by decide)
    · exact ha
  · rcases h.failure (.stream 200 [] [1, 2] false) (by decide) (by decide) with he | ha
    · exact he
    · cases ha

end Sipi.Serve
