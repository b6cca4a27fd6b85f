import Sipi.Serve.Orphans

/-!
# What is in a registered cache file?

`formats/output_sink.cpp` and `ImageEncodeProducer` of `ffi/serve_image.cpp`.

## Honest scope

A stream that has failed writes nothing more. Kakadu is a parameter: it makes calls to its target, and may do with
the replies what it likes.
-/

namespace Sipi.Serve

open Sipi.Iiif Sipi.Theory Sipi.Cache

/-! ### Sinks -/

/-- `OutputSink`. The one callback is `sink_thunk`. -/
inductive OutputSink where
  | filePath (path : Str)
  | callback
  | tee (sinks : List OutputSink)

/-- What becomes of the bytes to write. -/
structure Flush where
  count : ℕ
  ok : Bool

/-- What the outside does. -/
structure Surroundings where
  codes : ℕ → ℤ
  opens : Bool
  flushes : ℕ → Flush
  atClose : Flush
  stats : Bool

/-- A `std::ofstream`. -/
structure FileStream where
  content : Bytes
  pending : Bytes
  failed : Bool
  writes : ℕ

namespace FileStream

/-- A new file is opened. -/
def new (env : Surroundings) : FileStream := ⟨[], [], !env.opens, 0⟩

/-- `write`. -/
def write (env : Surroundings) (data : Bytes) (f : FileStream) : FileStream :=
  let flush := env.flushes f.writes
  if f.failed then f
  else if flush.ok then
    { f with
      content := f.content ++ (f.pending ++ data).take flush.count
      pending := (f.pending ++ data).drop flush.count
      writes := f.writes + 1 }
  else ⟨f.content ++ (f.pending ++ data).take flush.count, [], true, f.writes + 1⟩

/-- The destructor. -/
def close (env : Surroundings) (f : FileStream) : FileStream :=
  if f.failed then f
  else if env.atClose.ok then { f with content := f.content ++ f.pending, pending := [] }
  else { f with content := f.content ++ f.pending.take env.atClose.count, pending := [], failed := true }

end FileStream

/-- `ThunkCtx`, with what went to the response. -/
structure ThunkCtx where
  bytes : ℕ
  delivered : List Bytes

/-- `sink_thunk`. -/
def sinkThunk (env : Surroundings) (data : Bytes) (t : ThunkCtx) : ℤ × ThunkCtx :=
  (env.codes t.delivered.length, ⟨(t.bytes + data.length) % 2 ^ 64, t.delivered ++ [data]⟩)

/-- `Leaf`. -/
inductive Leaf where
  | callback
  | file (f : FileStream)

/-- `fatal`. -/
def Leaf.fatal : Leaf → Bool
  | .callback => true
  | .file _ => false

/-- One chunk goes to a leaf. -/
def Leaf.write (env : Surroundings) (data : Bytes) (t : ThunkCtx) : Leaf → ℤ × Leaf × ThunkCtx
  | .callback => ((sinkThunk env data t).1, .callback, (sinkThunk env data t).2)
  | .file f => (0, .file (f.write env data), t)

/-- `SinkStream`, with what its callback leads to. -/
structure SinkStream where
  leaves : List Leaf
  thunk : ThunkCtx

namespace SinkStream

mutual

/-- `flatten`. -/
def flatten (env : Surroundings) : OutputSink → List Leaf
  | .callback => [.callback]
  | .filePath _ => [.file (.new env)]
  | .tee sinks => flattenAll env sinks

/-- The loop of `flatten`. -/
def flattenAll (env : Surroundings) : List OutputSink → List Leaf
  | [] => []
  | sink :: sinks => flatten env sink ++ flattenAll env sinks

end

/-- The constructor. -/
def new (env : Surroundings) (sink : OutputSink) : SinkStream := ⟨flatten env sink, ⟨0, []⟩⟩

/-- The loop of `write`. -/
def writeLoop (env : Surroundings) (data : Bytes) (rc : ℤ) : List Leaf → ThunkCtx → ℤ × List Leaf × ThunkCtx
  | [], t => (rc, [], t)
  | leaf :: leaves, t =>
    let (r, leaf', t') := leaf.write env data t
    let (rc', leaves', t'') := writeLoop env data (if r ≠ 0 ∧ leaf.fatal then r else rc) leaves t'
    (rc', leaf' :: leaves', t'')

/-- `write`. -/
def write (env : Surroundings) (data : Bytes) (s : SinkStream) : ℤ × SinkStream :=
  let (rc, leaves, t) := writeLoop env data 0 s.leaves s.thunk
  (rc, ⟨leaves, t⟩)

/-- The destructor. -/
def close (env : Surroundings) (s : SinkStream) : SinkStream :=
  { s with
    leaves := s.leaves.map fun
      | .callback => .callback
      | .file f => .file (f.close env) }

/-- What is in the files. -/
def files (s : SinkStream) : List Bytes :=
  s.leaves.filterMap fun
    | .callback => none
    | .file f => some f.content

end SinkStream

/-- Each write of a chunk returns a code. -/
abbrev Encoder := Interaction Bytes (fun _ => ℤ) Encoded

/-- A sequence of chunks, up to the first that fails. -/
def pushAll (ending : Encoded) : List Bytes → Encoder
  | [] => .done ending
  | chunk :: chunks => .call chunk fun rc => if rc ≠ 0 then .done .clientAbort else pushAll ending chunks

/-- How the `try` block of `SipiIOJ2k::write` ends. -/
inductive KduEnd where
  | finished
  | raised
  | imageError
  deriving DecidableEq

/-- Kakadu: it makes calls to `write` of its target. -/
abbrev Kakadu := Interaction Bytes (fun _ => Bool) KduEnd

/-- `SipiIOJ2k::write`, from `J2kHttpStream` on. The flag is `client_aborted`, which is looked at only after an
exception. -/
def writeJ2k (aborted : Bool) : Kakadu → Encoder
  | .done .finished => .done .written
  | .done .raised => .done (if aborted then .clientAbort else .imageError)
  | .done .imageError => .done .imageError
  | .call chunk k => .call chunk fun rc => if rc ≠ 0 then writeJ2k true (k false) else writeJ2k aborted (k true)

/-- What `img_.write` encodes, and how it ends. -/
inductive Encoding where
  | jpg (chunks : List Bytes) (ending : Encoded)
  | jp2 (kakadu : Kakadu)
  | tif (file : Bytes)
  | png (chunks : List Bytes) (ending : Encoded)
  | nothing (ending : Encoded)

/-- `img_.write`. -/
def imgWrite : Encoding → Encoder
  | .jpg chunks ending => pushAll ending chunks
  | .jp2 kakadu => writeJ2k false kakadu
  | .tif file => pushAll .written [file]
  | .png chunks ending => pushAll ending chunks
  | .nothing ending => .done ending

/-- What `finalize_cache` does with the file. -/
inductive Finalized where
  | skipped
  | discarded
  | registered (content : Bytes)
  deriving DecidableEq

/-- `finalize_cache`. -/
def finalizeCache (cfg : Config) (file : Option Bytes) (streamed : ℕ) : Finalized :=
  match file with
  | none => .skipped
  | some content => if Requests.Drops cfg content.length streamed then .discarded else .registered content

/-- What `produce` leaves. -/
structure Production where
  result : Produced
  thunk : ThunkCtx
  cached : Option Finalized

/-- The sink of `produce`, when it has a cache file. -/
def teeSink (cachefile : Str) : OutputSink := .tee [.callback, .filePath cachefile]

/-- `produce`, with a cache file. -/
def produceCached (cfg : Config) (cachefile : Str) (env : Surroundings) (encoding : Encoding) : Production :=
  let (encoded, s) := (imgWrite encoding).run (SinkStream.write env) (.new env (teeSink cachefile))
  let s := s.close env
  match encoded with
  | .clientAbort | .sipiError | .imageError => ⟨.returned 1, s.thunk, none⟩
  | .otherException => ⟨.threw, s.thunk, none⟩
  | .written =>
    ⟨.returned 0, s.thunk, some (finalizeCache cfg (if env.stats then s.files.head? else none) s.thunk.bytes)⟩

/-- A write has failed. -/
def Fails (_ : Bytes) (rc : ℤ) : Prop := rc ≠ 0

/-- The image is written. -/
def IsWritten (encoded : Encoded) : Prop := encoded = .written

theorem pushAll_heeds (ending : Encoded) (chunks : List Bytes) : (pushAll ending chunks).Heeds Fails IsWritten := by
  induction chunks with
  | nil => trivial
  | cons chunk chunks ih =>
    intro rc
    beta_reduce
    constructor
    · intro (hrc : rc ≠ 0)
      rw [if_pos hrc]
      exact Encoded.noConfusion
    · intro (hrc : ¬ rc ≠ 0)
      rw [if_neg hrc]
      exact ih

theorem writeJ2k_avoids {p : Kakadu} (h : p.Avoids (· = .finished)) (aborted : Bool) :
    (writeJ2k aborted p).Avoids IsWritten := by
  induction p generalizing aborted with
  | done e =>
    cases e with
    | finished => exact absurd rfl h
    | raised => cases aborted <;> exact Encoded.noConfusion
    | imageError => exact Encoded.noConfusion
  | call chunk k ih =>
    intro rc
    beta_reduce
    split
    · exact ih _ (h _) _
    · exact ih _ (h _) _

theorem writeJ2k_heeds {p : Kakadu} (h : p.Heeds (fun _ ok => ok = false) (· = .finished)) (aborted : Bool) :
    (writeJ2k aborted p).Heeds Fails IsWritten := by
  induction p generalizing aborted with
  | done e => cases e <;> trivial
  | call chunk k ih =>
    intro rc
    beta_reduce
    constructor
    · intro (hrc : rc ≠ 0)
      rw [if_pos hrc]
      exact writeJ2k_avoids ((h false).1 rfl) true
    · intro (hrc : ¬ rc ≠ 0)
      rw [if_neg hrc]
      exact ih true ((h true).2 Bool.noConfusion) aborted

/-- Kakadu finishes no image of which a write has failed. Of the other encoders nothing is assumed. -/
def Encoding.Raises : Encoding → Prop
  | .jp2 kakadu => kakadu.Heeds (fun _ ok => ok = false) (· = .finished)
  | _ => True

theorem imgWrite_heeds {encoding : Encoding} (h : encoding.Raises) : (imgWrite encoding).Heeds Fails IsWritten := by
  cases encoding with
  | jpg chunks ending => exact pushAll_heeds ending chunks
  | jp2 kakadu => exact writeJ2k_heeds h false
  | tif file => exact pushAll_heeds .written [file]
  | png chunks ending => exact pushAll_heeds ending chunks
  | nothing ending => trivial

/-! ### The file is behind the response -/

/-- File and buffer are the body, or it failed. -/
def FileStream.Behind (f : FileStream) (body : Bytes) : Prop :=
  if f.failed then f.content <+: body else f.content ++ f.pending = body

variable {env : Surroundings}

theorem FileStream.behind_new : (FileStream.new env).Behind [] := by
  unfold Behind new
  split <;> simp

variable {f : FileStream}

theorem FileStream.Behind.write {body : Bytes} (h : f.Behind body) (data : Bytes) :
    (f.write env data).Behind (body ++ data) := by
  unfold Behind at h
  rw [FileStream.write]
  by_cases hf : f.failed
  · rw [if_pos hf] at h
    rw [if_pos hf, Behind, if_pos hf]
    exact h.trans (List.prefix_append body data)
  · rw [if_neg hf] at h
    subst h
    rw [if_neg hf]
    split
    · rw [Behind, if_neg hf]
      simp
    · rw [Behind, if_pos rfl, List.append_assoc, List.prefix_append_right_inj]
      exact List.take_prefix _ _

theorem FileStream.Behind.close {body : Bytes} (h : f.Behind body) : (f.close env).content <+: body := by
  unfold Behind at h
  unfold FileStream.close
  by_cases hf : f.failed
  · rw [if_pos hf] at h ⊢
    exact h
  · rw [if_neg hf] at h ⊢
    subst h
    split_ifs with hok
    · exact List.prefix_rfl
    · exact (List.prefix_append_right_inj _).2 (List.take_prefix _ _)

/-- A callback, a file behind it, and the count. -/
structure Teed (s : SinkStream) (f : FileStream) : Prop where
  leaves : s.leaves = [.callback, .file f]
  behind : f.Behind s.thunk.delivered.flatten
  bytes : s.thunk.bytes = s.thunk.delivered.flatten.length % 2 ^ 64

theorem teed_new (env : Surroundings) (cachefile : Str) : Teed (.new env (teeSink cachefile)) (.new env) :=
  ⟨rfl, FileStream.behind_new, rfl⟩

variable {s : SinkStream}

theorem write_teed (hl : s.leaves = [.callback, .file f]) (data : Bytes) :
    s.write env data =
      (env.codes s.thunk.delivered.length,
        ⟨[.callback, .file (f.write env data)], (sinkThunk env data s.thunk).2⟩) := by
  by_cases hrc : env.codes s.thunk.delivered.length = 0
  · simp [SinkStream.write, hl, SinkStream.writeLoop, Leaf.write, sinkThunk, hrc]
  · simp [SinkStream.write, hl, SinkStream.writeLoop, Leaf.write, Leaf.fatal, sinkThunk, hrc]

theorem Teed.write (h : Teed s f) (data : Bytes) : Teed (s.write env data).2 (f.write env data) := by
  rw [write_teed h.leaves]
  refine ⟨rfl, ?_, ?_⟩
  · simpa [sinkThunk] using h.behind.write data
  · simp [sinkThunk, h.bytes]

/-- No call of the response has failed. -/
def NoneFailed (env : Surroundings) (s : SinkStream) : Prop := ∀ n < s.thunk.delivered.length, env.codes n = 0

theorem noneFailed_write (h : Teed s f) {data : Bytes} (hnn : NoneFailed env s)
    (hrc : ¬ Fails data (s.write env data).1) : NoneFailed env (s.write env data).2 := by
  rw [write_teed h.leaves] at hrc ⊢
  intro n hn
  rcases Nat.lt_succ_iff_lt_or_eq.1 (by simpa [sinkThunk] using hn) with hlt | rfl
  · exact hnn n hlt
  · exact not_not.1 hrc

theorem run_teed (env : Surroundings) (cachefile : Str) (encoding : Encoding) :
    ∃ f, Teed ((imgWrite encoding).run (SinkStream.write env) (.new env (teeSink cachefile))).2 f := by
  refine Interaction.run_invariant (fun s => ∃ f, Teed s f) ?_ (imgWrite encoding) ⟨_, teed_new env cachefile⟩
  rintro data s ⟨f, ht⟩
  exact ⟨_, ht.write data⟩

theorem run_noneFailed {cachefile : Str} {encoding : Encoding} (hr : encoding.Raises)
    (h : ((imgWrite encoding).run (SinkStream.write env) (.new env (teeSink cachefile))).1 = .written) :
    NoneFailed env ((imgWrite encoding).run (SinkStream.write env) (.new env (teeSink cachefile))).2 := by
  refine (Interaction.run_heeds (fun s => (∃ f, Teed s f) ∧ NoneFailed env s) ?_ (imgWrite encoding)
    (imgWrite_heeds hr) ⟨⟨_, teed_new env cachefile⟩, by simp [NoneFailed, SinkStream.new]⟩ h).2
  rintro data s ⟨⟨f, ht⟩, hn⟩ hrc
  exact ⟨⟨_, ht.write data⟩, noneFailed_write ht hn hrc⟩

theorem files_close (hl : s.leaves = [.callback, .file f]) : (s.close env).files = [(f.close env).content] := by
  simp [SinkStream.files, SinkStream.close, hl]

/-! ### A registered file -/

theorem length_of_registered {cfg : Config} {file : Option Bytes} {streamed : ℕ} {content : Bytes}
    (h : finalizeCache cfg file streamed = .registered content) :
    file = some content ∧ content.length = streamed := by
  cases file with
  | none => cases h
  | some bytes =>
    rw [finalizeCache] at h
    split at h
    · cases h
    · next hk =>
      cases h
      exact ⟨rfl, by_contra fun hne => hk (Or.inr (Or.inl hne))⟩

theorem registered_prefix {cfg : Config} {cachefile : Str} {encoding : Encoding} {content : Bytes}
    (h : (produceCached cfg cachefile env encoding).cached = some (.registered content)) :
    let thunk := (produceCached cfg cachefile env encoding).thunk
    content <+: thunk.delivered.flatten ∧ content.length = thunk.delivered.flatten.length % 2 ^ 64 ∧
      (encoding.Raises → ∀ n < thunk.delivered.length, env.codes n = 0) := by
  unfold produceCached at h ⊢
  have hr := run_teed env cachefile encoding
  have hn := @run_noneFailed env cachefile encoding
  generalize (imgWrite encoding).run (SinkStream.write env) (.new env (teeSink cachefile)) = ended at h hr hn ⊢
  obtain ⟨encoded, s⟩ := ended
  cases encoded with
  | written =>
    obtain ⟨f, ht⟩ := hr
    obtain ⟨hf, hl⟩ := length_of_registered (Option.some.inj h)
    rw [files_close ht.leaves] at hf
    split at hf
    · cases hf
      exact ⟨ht.behind.close, hl.trans ht.bytes, fun he => hn he rfl⟩
    · cases hf
  | clientAbort | sipiError | imageError | otherException => cases h

/-- **A registered cache file is the body of the response**: for every encoder, whatever the response returns and
whatever happens to the file, if fewer than `2 ^ 64` bytes went to the response. **No callback reported a failure**,
unless Kakadu has finished all the same. -/
theorem registered_is_streamed (cfg : Config) (cachefile : Str) (env : Surroundings) (encoding : Encoding)
    (content : Bytes) (hcount : (produceCached cfg cachefile env encoding).thunk.delivered.flatten.length < 2 ^ 64)
    (h : (produceCached cfg cachefile env encoding).cached = some (.registered content)) :
    content = (produceCached cfg cachefile env encoding).thunk.delivered.flatten ∧
    (encoding.Raises → ∀ n < (produceCached cfg cachefile env encoding).thunk.delivered.length, env.codes n = 0) := by
  obtain ⟨hs, hl, hc⟩ := registered_prefix h
  rw [Nat.mod_eq_of_lt hcount] at hl
  exact ⟨hs.eq_of_length hl, hc⟩

def unlimited : Config := ⟨txt "/cache", -1, 0⟩

def undisturbed : Surroundings := ⟨fun _ => 0, true, fun _ => ⟨0, true⟩, ⟨0, true⟩, true⟩

/-- A Kakadu that raises at a failed write. -/
def heedful : List Bytes → Kakadu
  | [] => .done .finished
  | chunk :: chunks => .call chunk fun ok => if ok then heedful chunks else .done .raised

theorem heedful_raises (chunks : List Bytes) : (Encoding.jp2 (heedful chunks)).Raises := by
  induction chunks with
  | nil => trivial
  | cons chunk chunks ih =>
    rintro (_ | _)
    · exact ⟨fun _ => KduEnd.noConfusion, fun hf => absurd rfl hf⟩
    · exact ⟨Bool.noConfusion, fun _ => ih⟩

theorem registered_two_chunks :
    let production := produceCached unlimited (txt "cache_a") undisturbed (.jp2 (heedful [[1], [2, 3]]))
    production.cached = some (.registered [1, 2, 3]) ∧ [1, 2, 3] = production.thunk.delivered.flatten ∧
      ∀ n < production.thunk.delivered.length, undisturbed.codes n = 0 := by
  have hc : (produceCached unlimited (txt "cache_a") undisturbed (.jp2 (heedful [[1], [2, 3]]))).cached =
      some (.registered [1, 2, 3]) := by decide
  obtain ⟨hb, hn⟩ := registered_is_streamed unlimited (txt "cache_a") undisturbed (.jp2 (heedful [[1], [2, 3]]))
    [1, 2, 3] (by decide) hc
  exact ⟨hc, hb, hn (heedful_raises _)⟩

/-- The disk is full after the first byte. -/
def fullDisk : Surroundings := ⟨fun _ => 0, true, fun _ => ⟨1, false⟩, ⟨0, false⟩, true⟩

theorem produceCached_fullDisk (cachefile : Str) (x : UInt8) (a b c : Bytes)
    (hc : ((a.length + 1 + b.length) % 2 ^ 64 + c.length) % 2 ^ 64 = 1) :
    (produceCached unlimited cachefile fullDisk (.jpg [x :: a, b, c] .written)).thunk.delivered = [x :: a, b, c] ∧
    (produceCached unlimited cachefile fullDisk (.jpg [x :: a, b, c] .written)).cached = some (.registered [x]) := by
  have hr : (imgWrite (.jpg [x :: a, b, c] .written)).run (SinkStream.write fullDisk)
      (.new fullDisk (teeSink cachefile)) =
        (.written, ⟨[.callback, .file ⟨[x], [], true, 1⟩], ⟨1, [x :: a, b, c]⟩⟩) := by
    simpa [imgWrite, pushAll, Interaction.run, SinkStream.new, teeSink, SinkStream.flatten, SinkStream.flattenAll,
      SinkStream.write, SinkStream.writeLoop, Leaf.write, sinkThunk, fullDisk, FileStream.new, FileStream.write]
      using hc
  rw [produceCached, hr]
  exact ⟨rfl, rfl⟩

/-- The response fails at the second chunk. -/
def hungUp : Surroundings := { undisturbed with codes := fun n => if n = 1 then 1 else 0 }

theorem registers_part_or_failed :
    ((produceCached unlimited (txt "cache_a") fullDisk
        (.jpg [0 :: List.replicate (2 ^ 63 - 1) 0, List.replicate (2 ^ 63) 0, [0]] .written)).cached =
          some (.registered [0]) ∧
      [0] ≠ (produceCached unlimited (txt "cache_a") fullDisk
        (.jpg [0 :: List.replicate (2 ^ 63 - 1) 0, List.replicate (2 ^ 63) 0, [0]]
          .written)).thunk.delivered.flatten) ∧
    ((produceCached unlimited (txt "cache_a") hungUp
        (.jp2 (.call [1] fun _ => .call [2, 3] fun _ => .done .finished))).cached = some (.registered [1, 2, 3]) ∧
      hungUp.codes 1 ≠ 0) := by
  have hcn : ((2 ^ 63 - 1 + 1 + 2 ^ 63) % 2 ^ 64 + 1) % 2 ^ 64 = 1 := by norm_num
  have hl : ∀ a b : Bytes, [0] ≠ [0 :: a, b, [0]].flatten := by
    intro a b h
    simp at h
  obtain ⟨hd, hc⟩ := produceCached_fullDisk (txt "cache_a") 0 (List.replicate (2 ^ 63 - 1) 0)
    (List.replicate (2 ^ 63) 0) [0] (by rw [List.length_replicate, List.length_replicate]; exact hcn)
  rw [hd]
  exact ⟨⟨hc, hl _ _⟩, by decide, by decide⟩

end Sipi.Serve
