import Sipi.Theory.Interaction
import Sipi.Iiif.Grammar
import Mathlib.Algebra.Ring.Int.Defs

/-!
# The response sink

`server-rs/src/sink.rs` and `ffi/serve_response.cpp`: the engine emits a response through callbacks during one
synchronous call.

## Honest scope

A header is kept as the pair that the engine passes. A callback does not panic.
-/

namespace Sipi.Serve

open Sipi.Iiif Sipi.Theory

/-- A chunk of a body. -/
abbrev Bytes := List UInt8

/-- The name and the value of a header. -/
abbrev Header := Str × Str

/-- `BodyItem`: a chunk, or an abnormal end. -/
inductive BodyItem where
  | chunk (bytes : Bytes)
  | abort
  deriving DecidableEq

/-- `Outcome`. -/
inductive Outcome where
  | complete (status : ℕ) (headers : List Header)
  | streamHead (status : ℕ) (headers : List Header)
  deriving DecidableEq

/-- `StreamSink`, with its two channels. -/
structure StreamSink where
  status : ℕ
  headers : List Header
  outcomeTx : Bool
  headSent : Bool
  patience : Option ℕ
  items : List BodyItem
  outcomes : List Outcome

/-- The calls of a body producer. -/
inductive Call where
  | write (chunk : Bytes)
  | cancelled

/-- A program that writes and polls. -/
abbrev Program (α : Type) := Interaction Call (fun _ => Bool) α

namespace StreamSink

/-- The sink at the start of a call. -/
def new (patience : Option ℕ) : StreamSink := ⟨0, [], true, false, patience, [], []⟩

/-- `send_head`. -/
def sendHead (s : StreamSink) : StreamSink :=
  if s.headSent then s
  else if s.outcomeTx then
    { s with
      headSent := true
      outcomeTx := false
      headers := []
      outcomes := s.outcomes ++ [.streamHead s.status s.headers] }
  else { s with headSent := true }

/-- `blocking_send`, and whether it succeeded. -/
def blockingSend (item : BodyItem) (s : StreamSink) : Bool × StreamSink :=
  match s.patience with
  | none => (true, { s with items := s.items ++ [item] })
  | some 0 => (false, s)
  | some (n + 1) => (true, { s with patience := some n, items := s.items ++ [item] })

/-- `cb_set_status`, in sixteen bits. -/
def cbSetStatus (status : ℤ) (s : StreamSink) : StreamSink :=
  { s with status := (status % 2 ^ 16).toNat }

/-- `cb_add_header`. -/
def cbAddHeader (header : Header) (s : StreamSink) : StreamSink :=
  { s with headers := s.headers ++ [header] }

/-- `cb_write`. -/
def cbWrite (chunk : Bytes) (s : StreamSink) : Bool × StreamSink :=
  if chunk = [] then (true, s.sendHead) else s.sendHead.blockingSend (.chunk chunk)

/-- `cb_cancelled`. -/
def cbCancelled (s : StreamSink) : Bool := s.patience = some 0

/-- The calls of a producer, on the sink. -/
def handle : Call → StreamSink → Bool × StreamSink
  | .write chunk, s => s.cbWrite chunk
  | .cancelled, s => (s.cbCancelled, s)

/-- The sends of `stream_file_region`. -/
def handleSend : Call → StreamSink → Bool × StreamSink
  | .write chunk, s => s.blockingSend (.chunk chunk)
  | .cancelled, s => (s.cbCancelled, s)

end StreamSink

/-- What one `read` gives. -/
inductive ReadResult where
  | data (bytes : Bytes)
  | interrupted
  | failed

/-- `FileBody`, with what the file system answers. -/
structure FileBody where
  opens : Bool
  seeks : Bool
  reads : List ReadResult
  offset : ℕ
  length : ℕ

/-- `FILE_CHUNK`. -/
def fileChunk : ℕ := 64 * 1024

/-- What a read gives for what is wanted. -/
def readUpTo (remaining : ℕ) (bytes : Bytes) : Bytes := bytes.take (min remaining fileChunk)

/-- The loop of `stream_file_region`. -/
def streamLoop : ℕ → List ReadResult → Program ℤ
  | 0, _ => .done 0
  | _ + 1, [] => .done 1
  | n + 1, .interrupted :: rs => streamLoop (n + 1) rs
  | _ + 1, .failed :: _ => .done 1
  | n + 1, .data bytes :: rs =>
    if readUpTo (n + 1) bytes = [] then .done 1
    else .call (.write (readUpTo (n + 1) bytes)) fun sent =>
      if sent then streamLoop (n + 1 - (readUpTo (n + 1) bytes).length) rs else .done 1

/-- `stream_file_region`. -/
def streamFileRegion (f : FileBody) : Program ℤ :=
  if f.opens = false then .done 1
  else if 0 < f.offset ∧ f.seeks = false then .done 1
  else streamLoop f.length f.reads

/-- `cb_send_file`. -/
def StreamSink.cbSendFile (f : FileBody) (s : StreamSink) : ℤ × StreamSink :=
  (streamFileRegion f).run StreamSink.handleSend s.sendHead

/-- How `produce` ends. -/
inductive Produced where
  | returned (code : ℤ)
  | threw
  deriving DecidableEq

/-- How the encoder ends. -/
inductive Encoded where
  | written
  | clientAbort
  | sipiError
  | imageError
  | otherException

/-- `ImageEncodeProducer::produce`. -/
def produce (encode : Program Encoded) (finalizeThrows : Bool) : Program Produced :=
  encode.map fun
    | .written => if finalizeThrows then .threw else .returned 0
    | .clientAbort | .sipiError | .imageError => .returned 1
    | .otherException => .threw

/-- `SipiStatus`, without success. -/
inductive SipiStatus where
  | badRequest
  | notFound
  | internalError
  | serviceUnavailable
  | clientGone

/-- The code that crosses the boundary. -/
def SipiStatus.code : SipiStatus → ℤ
  | .badRequest => 400
  | .notFound => 404
  | .internalError => 500
  | .serviceUnavailable => 503
  | .clientGone => 499

/-- `Body`. -/
inductive Body where
  | empty
  | file (f : FileBody)
  | stream (producer : Program Produced)

/-- `ServeResponse`. -/
structure ServeResponse where
  httpStatus : ℤ
  headers : List Header
  body : Body

/-- What building a response comes to. -/
inductive Building where
  | refused (status : SipiStatus)
  | threw
  | built (response : ServeResponse)

/-- The status and the headers. -/
def StreamSink.setHead (response : ServeResponse) (s : StreamSink) : StreamSink :=
  response.headers.foldl (fun s h => s.cbAddHeader h) (s.cbSetStatus response.httpStatus)

/-- `apply`, and whether it returns. -/
def apply (response : ServeResponse) (s : StreamSink) : Bool × StreamSink :=
  match response.body with
  | .empty => (true, s.setHead response)
  | .file f => (true, ((s.setHead response).cbSendFile f).2)
  | .stream producer =>
    match producer.run StreamSink.handle (s.setHead response) with
    | (.returned _, s) => (true, s)
    | (.threw, s) => (false, s)

/-- `sipi_serve_file` and `sipi_serve_image`. -/
def sipiServe (building : Building) (s : StreamSink) : ℤ × StreamSink :=
  match building with
  | .refused status => (status.code, s)
  | .threw => (SipiStatus.internalError.code, s)
  | .built response =>
    if (apply response s).1 then (0, (apply response s).2)
    else (SipiStatus.internalError.code, (apply response s).2)

/-- `map_status_u16`. -/
def mapStatusU16 (status : ℕ) : ℕ := if 100 ≤ status ∧ status < 1000 then status else 500

/-- `map_status`. -/
def mapStatus (code : ℤ) : ℕ := if 0 ≤ code ∧ code < 2 ^ 16 then mapStatusU16 code.toNat else 500

/-- The tail of `serve_streaming`. -/
def StreamSink.finish (code : ℤ) (s : StreamSink) : StreamSink :=
  if s.headSent = false ∧ s.outcomeTx = true then
    { s with
      outcomeTx := false
      outcomes := s.outcomes ++
        [if code = 0 then .complete (mapStatusU16 s.status) s.headers else .complete (mapStatus code) []] }
  else s

/-- `serve_streaming`. -/
def serveStreaming (building : Building) (patience : Option ℕ) : StreamSink :=
  (sipiServe building (.new patience)).2.finish (sipiServe building (.new patience)).1

/-- The response as it reaches the client. -/
inductive Visible where
  | complete (status : ℕ) (headers : List Header)
  | stream (status : ℕ) (headers : List Header) (bytes : Bytes) (aborted : Bool)
  deriving DecidableEq

/-- The bytes of a channel. -/
def bytesOf : List BodyItem → Bytes
  | [] => []
  | .chunk bytes :: items => bytes ++ bytesOf items
  | .abort :: _ => []

/-- What the client sees at the end. -/
def StreamSink.visible (s : StreamSink) : Option Visible :=
  if s.patience = some 0 then none
  else
    match s.outcomes.head? with
    | none => none
    | some (.complete status headers) => some (.complete status headers)
    | some (.streamHead status headers) =>
      some (.stream (mapStatusU16 status) headers (bytesOf s.items) (decide (BodyItem.abort ∈ s.items)))

end Sipi.Serve
