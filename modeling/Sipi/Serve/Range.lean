import Sipi.Serve.Delivery
import Sipi.Serve.Separation

/-!
# Byte ranges of a file

`build_file_response` in `ffi/serve_response.cpp` matches a `Range` header against a regular expression
(`parse_range`) and cuts the end of the span to the file, but does not compare it with the start.

## Honest scope

The characters of a header value are its bytes. The type of the file and the text of its date are given.
-/

namespace Sipi.Serve

open Sipi.Iiif Sipi.Theory

/-- `bytes=\s*(\d+)-(\d*)[\D.*]?`. -/
def matchRange (range : Str) : Option (Str × Str) := do
  let rest ← range.dropPrefix? (txt "bytes=")
  let first := (rest.dropWhile isSpace).takeWhile Char.isDigit
  let tail ← ((rest.dropWhile isSpace).dropWhile Char.isDigit).dropPrefix? ['-']
  if first ≠ [] ∧ (tail.dropWhile Char.isDigit).length ≤ 1 then some (first, tail.takeWhile Char.isDigit) else none

/-- Why a range has no bounds. -/
inductive RangeFail where
  | malformed
  | outOfRange
  deriving DecidableEq

/-- `std::stoull` of digits. -/
def stoull (digits : Str) : Except RangeFail ℕ :=
  if digitsVal digits < 2 ^ 64 then .ok (digitsVal digits) else .error .outOfRange

/-- The end that is asked for, or that of the file. -/
def rangeEnd (last : Str) (fsize : ℕ) : Except RangeFail ℕ :=
  if last = [] then .ok (if 0 < fsize then fsize - 1 else 0) else stoull last

/-- `parse_range`: the first and the last byte. -/
def parseRange (range : Str) (fsize : ℕ) : Except RangeFail (ℕ × ℕ) :=
  match matchRange range with
  | none => .error .malformed
  | some (first, last) => do
    let start ← stoull first
    let stop ← rangeEnd last fsize
    return (start, stop)

/-! ### The response -/

/-- What `stat` gives. -/
structure FileStat where
  size : ℕ
  size_lt : size < 2 ^ 63
  lastModified : Str

/-- A file, as the file system answers. -/
structure ServedFile where
  access : Bool
  stat : Option FileStat
  mimetype : Option Str
  opens : Bool
  seeks : Bool
  reads : List ReadResult

/-- `end - start + 1` of `std::uint64_t`. -/
def spanLength (start stop : ℕ) : ℕ := (stop + 2 ^ 64 - start + 1) % 2 ^ 64

/-- The end of the span, cut to the file. -/
def clampEnd (fsize stop : ℕ) : ℕ := if fsize ≤ stop then fsize - 1 else stop

/-- The value of `Content-Range`. -/
def contentRange (start stop fsize : ℕ) : Str :=
  txt "bytes " ++ decimal start ++ '-' :: decimal stop ++ '/' :: decimal fsize

/-- The headers that do not depend on the range. -/
def fileHeaders (mimetype lastModified : Str) : List Header :=
  [(txt "Content-Type", mimetype),
    (txt "Cache-Control", txt "public, must-revalidate, max-age=0"),
    (txt "Pragma", txt "no-cache"),
    (txt "Accept-Ranges", txt "bytes"),
    (txt "Last-Modified", lastModified)]

/-- The body for an offset and a length. -/
def ServedFile.bodyAt (file : ServedFile) (start length : ℕ) : Body :=
  if 0 < length then .file ⟨file.opens, file.seeks, file.reads, start, length⟩ else .empty

/-- The end of `build_file_response`. -/
def ServedFile.respond (file : ServedFile) (stat : FileStat) (httpStatus : ℤ) (start length : ℕ)
    (named : List Header) : Building :=
  match file.mimetype with
  | none => .threw
  | some mimetype => .built ⟨httpStatus, fileHeaders mimetype stat.lastModified ++ named, file.bodyAt start length⟩

/-- The part of `build_file_response` for a range. -/
def ServedFile.respondRange (file : ServedFile) (stat : FileStat) (range : Str) : Building :=
  match parseRange range stat.size with
  | .error .malformed => .refused .badRequest
  | .error .outOfRange => .threw
  | .ok (start, stop) =>
    if stat.size ≤ start then .refused .internalError
    else
      file.respond stat 206 start (spanLength start (clampEnd stat.size stop))
        [(txt "Content-Range", contentRange start (clampEnd stat.size stop) stat.size)]

/-- `build_file_response`. -/
def buildFileResponse (file : ServedFile) (range : Option Str) : Building :=
  if file.access = false then .refused .notFound
  else
    match file.stat with
    | none => .refused .internalError
    | some stat =>
      if range.getD [] = [] then file.respond stat 200 0 stat.size []
      else file.respondRange stat (range.getD [])

/-- What the reads of the rest give. -/
def ReadsFrom : Bytes → ℕ → List ReadResult → Prop
  | _, 0, _ => True
  | rest, _ + 1, [] => rest = []
  | rest, n + 1, .interrupted :: rs => ReadsFrom rest (n + 1) rs
  | _, _ + 1, .failed :: _ => False
  | rest, n + 1, .data bytes :: rs =>
    readUpTo (n + 1) bytes <+: rest ∧ (readUpTo (n + 1) bytes = [] → rest = []) ∧
      ReadsFrom (rest.drop (readUpTo (n + 1) bytes).length) (n + 1 - (readUpTo (n + 1) bytes).length) rs

/-- The file is still there, with this content. -/
structure FileBody.Unchanged (f : FileBody) (content : Bytes) : Prop where
  opens : f.opens = true
  seeks : f.seeks = true
  reads : ReadsFrom (content.drop f.offset) f.length f.reads

/-- **The response serves a span** and names it. -/
structure ServesSpan (size start stop : ℕ) (response : ServeResponse) (f : FileBody) : Prop where
  ordered : start ≤ stop
  inside : stop < size
  status : response.httpStatus = 206
  named : response.headers.filter (fun h => h.1 = txt "Content-Range") =
    [(txt "Content-Range", contentRange start stop size)]
  body : response.body = .file f
  offset : f.offset = start
  length : f.length = stop - start + 1
  streamed : ∀ content : Bytes, content.length = size → f.Unchanged content →
    ((streamFileRegion f).run Client.handle (.new none)).1 = 0 ∧
      ((streamFileRegion f).run Client.handle (.new none)).2.received.flatten =
        (content.drop start).take (stop - start + 1)

/-- Each response to a range serves a span. -/
def RangeServed (file : ServedFile) (range : Str) : Prop :=
  ∀ response, buildFileResponse file (some range) = .built response →
    ∃ stat start stop f, file.stat = some stat ∧ ServesSpan stat.size start stop response f

/-- A range, and at most one more character. -/
structure RangeText (range first last : Str) : Prop where
  text : ∃ spaces tail, range = txt "bytes=" ++ (spaces ++ (first ++ '-' :: (last ++ tail))) ∧
    (∀ c ∈ spaces, isSpace c = true) ∧ tail.length ≤ 1 ∧ ∀ c ∈ tail, c.isDigit = false
  number : first ∈ Grammar.posint
  digits : ∀ c ∈ last, c.isDigit = true

/-- The range is not inverted, if it fits. -/
def Upright (file : ServedFile) (range : Str) : Prop :=
  file.access = true → file.mimetype ≠ none → ∀ stat, file.stat = some stat →
    ∀ first last, RangeText range first last → last ≠ [] → digitsVal last < 2 ^ 64 →
      digitsVal first < stat.size → digitsVal first ≤ digitsVal last

theorem isDigit_of_isSpace {c : Char} (h : isSpace c = true) : c.isDigit = false := by
  have hc : c.toNat = 32 ∨ c.toNat ≤ 13 := by
    simp only [isSpace, Bool.or_eq_true, decide_eq_true_eq, Bool.and_eq_true] at h
    rcases h with rfl | h
    · exact Or.inl rfl
    · exact Or.inr h.2
  have hlt : c.toNat < 48 := by omega
  have hd : 48 ≤ c.toNat → 57 < c.toNat := by omega
  simpa [Char.isDigit, UInt32.le_iff_toNat_le] using hd

theorem isSpace_of_isDigit {c : Char} (h : c.isDigit = true) : isSpace c = false := by
  by_contra hs
  rw [Bool.not_eq_false] at hs
  simp [isDigit_of_isSpace hs] at h

variable {range first last : Str}

theorem rangeText_of_matchRange (h : matchRange range = some (first, last)) : RangeText range first last := by
  unfold matchRange at h
  obtain ⟨rest, hr, h⟩ := Option.bind_eq_some_iff.mp h
  obtain ⟨tail, htl, h⟩ := Option.bind_eq_some_iff.mp h
  split_ifs at h with ht
  cases h
  obtain ⟨hs, hsp, -⟩ := (takeWhile_dropWhile_eq_iff (p := isSpace) (s := rest)).mp ⟨rfl, rfl⟩
  obtain ⟨hf, hdg, -⟩ :=
    (takeWhile_dropWhile_eq_iff (p := Char.isDigit)).mp ⟨rfl, dropPrefix?_eq_some.mp htl⟩
  obtain ⟨hl, hd', hst⟩ := (takeWhile_dropWhile_eq_iff (p := Char.isDigit) (s := tail)).mp ⟨rfl, rfl⟩
  refine ⟨⟨rest.takeWhile isSpace, tail.dropWhile Char.isDigit, ?_, hsp, ht.2, ?_⟩,
    ⟨ht.1, hdg⟩, hd'⟩
  · rw [dropPrefix?_eq_some.mp hr, ← hl]
    conv_lhs => rw [hs, hf]
    rfl
  · -- what is left is one character at most, and it ended the digits
    intro c hc
    obtain ⟨d, hd⟩ : ∃ d, tail.dropWhile Char.isDigit = [d] := by
      apply List.length_eq_one_iff.mp
      have hp := List.length_pos_of_mem hc
      omega
    rw [hd, List.mem_singleton] at hc
    rw [hc]
    exact hst d [] hd

theorem matchRange_of_rangeText (h : RangeText range first last) : matchRange range = some (first, last) := by
  obtain ⟨⟨spaces, tail, rfl, hs, hl, ht⟩, ⟨hne, hf⟩, hls⟩ := h
  have hd : (first ++ '-' :: (last ++ tail)).takeWhile Char.isDigit = first ∧
      (first ++ '-' :: (last ++ tail)).dropWhile Char.isDigit = '-' :: (last ++ tail) := by
    apply takeWhile_dropWhile_eq_iff.mpr
    refine ⟨rfl, hf, ?_⟩
    intro c t hct
    rw [← (List.cons.inj hct).1]
    rfl
  have hb : (spaces ++ (first ++ '-' :: (last ++ tail))).dropWhile isSpace = first ++ '-' :: (last ++ tail) := by
    apply And.right (a := _ = spaces)
    apply takeWhile_dropWhile_eq_iff.mpr
    refine ⟨rfl, hs, ?_⟩
    intro c t hct
    cases first with
    | nil => exact absurd rfl hne
    | cons d first =>
      rw [← (List.cons.inj hct).1]
      exact isSpace_of_isDigit (hf d (List.mem_cons_self ..))
  have he : (last ++ tail).takeWhile Char.isDigit = last ∧ (last ++ tail).dropWhile Char.isDigit = tail := by
    apply takeWhile_dropWhile_eq_iff.mpr
    refine ⟨rfl, hls, ?_⟩
    rintro c t rfl
    exact ht c (List.mem_cons_self ..)
  apply Option.bind_eq_some_iff.mpr
  refine ⟨_, dropPrefix?_eq_some.mpr rfl, ?_⟩
  apply Option.bind_eq_some_iff.mpr
  refine ⟨last ++ tail, ?_, ?_⟩
  · rw [hb, hd.2]
    exact dropPrefix?_eq_some.mpr rfl
  · rw [hb, hd.1, he.1, he.2, if_pos ⟨hne, hl⟩]

theorem matchRange_eq_some_iff : matchRange range = some (first, last) ↔ RangeText range first last :=
  ⟨rangeText_of_matchRange, matchRange_of_rangeText⟩

theorem Client.write_of_stays {chunk : Bytes} {c : Client} (hc : chunk ≠ []) (hs : c.patience = none) :
    c.write chunk = (true, { c with written := c.written ++ [chunk], received := c.received ++ [chunk] }) := by
  unfold Client.write
  rw [if_neg hc, hs]

theorem streamLoop_reads {n : ℕ} {rs : List ReadResult} {rest : Bytes} {c : Client} (hs : c.patience = none)
    (hn : n ≤ rest.length) (hr : ReadsFrom rest n rs) :
    ((streamLoop n rs).run Client.handle c).1 = 0 ∧
      ((streamLoop n rs).run Client.handle c).2.received.flatten = c.received.flatten ++ rest.take n := by
  induction rs generalizing n rest c with
  | nil =>
    cases n with
    | zero => simp [streamLoop, Interaction.run]
    | succ n =>
      rw [ReadsFrom] at hr
      simp [hr] at hn
  | cons r rs ih =>
    cases n with
    | zero => simp [streamLoop, Interaction.run]
    | succ n =>
      cases r with
      | interrupted =>
        rw [ReadsFrom] at hr
        rw [streamLoop]
        exact ih hs hn hr
      | failed => exact absurd hr (by rw [ReadsFrom]; exact id)
      | data bytes =>
        rw [ReadsFrom] at hr
        rw [streamLoop]
        have hl : (readUpTo (n + 1) bytes).length ≤ n + 1 := by
          simp only [readUpTo, List.length_take]
          omega
        generalize readUpTo (n + 1) bytes = got at hr hl ⊢
        obtain ⟨⟨left, rfl⟩, hsm, hr⟩ := hr
        have hg : got ≠ [] := by
          intro hg
          simp [hsm hg] at hn
        rw [if_neg hg, Interaction.run,
          show Client.handle (.write got) c = _ from Client.write_of_stays hg hs]
        rw [List.drop_left] at hr
        rw [List.length_append] at hn
        obtain ⟨hc, hb⟩ := ih (c := { c with written := c.written ++ [got], received := c.received ++ [got] })
          hs (by omega) hr
        refine ⟨hc, ?_⟩
        rw [if_pos rfl, hb, List.take_append, List.take_of_length_le hl]
        simp

theorem streamFileRegion_unchanged {f : FileBody} {content : Bytes} (h : f.Unchanged content)
    (hi : f.offset + f.length ≤ content.length) :
    ((streamFileRegion f).run Client.handle (.new none)).1 = 0 ∧
      ((streamFileRegion f).run Client.handle (.new none)).2.received.flatten =
        (content.drop f.offset).take f.length := by
  unfold streamFileRegion
  rw [if_neg (by simp [h.opens]), if_neg (by simp [h.seeks])]
  have hl : f.length ≤ (content.drop f.offset).length := by
    rw [List.length_drop]
    omega
  simpa [Client.new] using streamLoop_reads (c := .new none) rfl hl h.reads

theorem stoull_eq_ok_iff {digits : Str} {n : ℕ} :
    stoull digits = .ok n ↔ digitsVal digits < 2 ^ 64 ∧ digitsVal digits = n := by
  unfold stoull
  split
  · next h => exact ⟨fun heq => ⟨h, Except.ok.inj heq⟩, fun heq => congrArg _ heq.2⟩
  · next h =>
    refine ⟨fun heq => ?_, fun heq => absurd heq.1 h⟩
    cases heq

/-- The last byte that is asked for is `stop`. -/
def EndsAt (last : Str) (fsize stop : ℕ) : Prop :=
  if last = [] then fsize - 1 = stop else digitsVal last < 2 ^ 64 ∧ digitsVal last = stop

variable {fsize stop : ℕ}

theorem rangeEnd_eq_ok_iff : rangeEnd last fsize = .ok stop ↔ EndsAt last fsize stop := by
  have hd : (if 0 < fsize then fsize - 1 else 0) = fsize - 1 := by
    split <;> omega
  unfold rangeEnd EndsAt
  rw [hd]
  split
  · rw [Except.ok.injEq]
  · exact stoull_eq_ok_iff

variable {start : ℕ}

theorem parseRange_eq_ok_iff :
    parseRange range fsize = .ok (start, stop) ↔
      ∃ first last, RangeText range first last ∧ (digitsVal first < 2 ^ 64 ∧ digitsVal first = start) ∧
        EndsAt last fsize stop := by
  unfold parseRange
  constructor
  · intro h
    split at h
    · cases h
    · next first last hm =>
      obtain ⟨n, hf, h⟩ := bind_eq_ok.mp h
      obtain ⟨m, hl, h⟩ := bind_eq_ok.mp h
      cases h
      exact ⟨first, last, matchRange_eq_some_iff.mp hm, stoull_eq_ok_iff.mp hf, rangeEnd_eq_ok_iff.mp hl⟩
  · rintro ⟨first, last, ht, hf, hl⟩
    rw [matchRange_eq_some_iff.mpr ht]
    apply bind_eq_ok.mpr
    refine ⟨start, stoull_eq_ok_iff.mpr hf, ?_⟩
    apply bind_eq_ok.mpr
    exact ⟨stop, rangeEnd_eq_ok_iff.mpr hl, rfl⟩

theorem clampEnd_lt (hs : 0 < fsize) (stop : ℕ) : clampEnd fsize stop < fsize := by
  unfold clampEnd
  split <;> omega

theorem le_clampEnd_iff (hs : start < fsize) (stop : ℕ) : start ≤ clampEnd fsize stop ↔ start ≤ stop := by
  unfold clampEnd
  split <;> omega

theorem spanLength_of_le (h : start ≤ stop) (hs : stop < 2 ^ 63) : spanLength start stop = stop - start + 1 := by
  unfold spanLength
  omega

theorem spanLength_of_lt (h : stop < start) (hs : start < 2 ^ 63) :
    spanLength start stop = 0 ∨ 2 ^ 63 < spanLength start stop := by
  unfold spanLength
  omega

/-! ### What is built for a range -/

/-- The response to a range. -/
def ServedFile.rangeResponse (file : ServedFile) (stat : FileStat) (mimetype : Str) (start stop : ℕ) :
    ServeResponse :=
  ⟨206, fileHeaders mimetype stat.lastModified ++ [(txt "Content-Range", contentRange start stop stat.size)],
    file.bodyAt start (spanLength start stop)⟩

theorem buildFileResponse_eq_built_iff {file : ServedFile} {response : ServeResponse} (hr : range ≠ []) :
    buildFileResponse file (some range) = .built response ↔
      file.access = true ∧ ∃ stat mimetype start stop, file.stat = some stat ∧ file.mimetype = some mimetype ∧
        parseRange range stat.size = .ok (start, stop) ∧ start < stat.size ∧
        response = file.rangeResponse stat mimetype start (clampEnd stat.size stop) := by
  unfold buildFileResponse
  constructor
  · intro h
    split at h
    · cases h
    · next ha =>
      refine ⟨Bool.eq_true_of_not_eq_false ha, ?_⟩
      split at h
      · cases h
      · next stat hst =>
        rw [if_neg (by exact hr)] at h
        unfold ServedFile.respondRange at h
        split at h
        · cases h
        · cases h
        · next start stop hp =>
          split at h
          · cases h
          · next hs =>
            unfold ServedFile.respond at h
            split at h
            · cases h
            · next mimetype hm =>
              exact ⟨stat, mimetype, start, stop, hst, hm, hp, Nat.lt_of_not_le hs,
                (Building.built.inj h).symm⟩
  · rintro ⟨ha, stat, mimetype, start, stop, hst, hm, hp, hs, rfl⟩
    rw [if_neg (by simp [ha]), hst]
    dsimp only
    rw [if_neg (by exact hr), ServedFile.respondRange, Option.getD_some, hp]
    dsimp only
    rw [if_neg (Nat.not_le_of_lt hs), ServedFile.respond, hm]
    rfl

theorem servesSpan_iff {file : ServedFile} {stat : FileStat} {mimetype : Str}
    (hsr : start < stat.size) (hst : stop < stat.size) :
    (∃ start' stop' f, ServesSpan stat.size start' stop' (file.rangeResponse stat mimetype start stop) f) ↔
      start ≤ stop := by
  have hsz := stat.size_lt
  constructor
  · rintro ⟨start', stop', f, h⟩
    by_contra hlt
    have hb : file.bodyAt start (spanLength start stop) = .file f := h.body
    have hl := h.length
    have hi := h.inside
    unfold ServedFile.bodyAt at hb
    split at hb
    · next hp =>
      rw [← Body.file.inj hb] at hl
      dsimp only at hl
      rcases spanLength_of_lt (by omega : stop < start) (by omega) with hz | hw
      · omega
      · omega
    · cases hb
  · intro hle
    have hs := spanLength_of_le hle (by omega)
    have hb : file.bodyAt start (spanLength start stop) =
        .file ⟨file.opens, file.seeks, file.reads, start, spanLength start stop⟩ := if_pos (by omega)
    refine ⟨start, stop, _, hle, hst, rfl, rfl, hb, rfl, hs, ?_⟩
    intro content hc hu
    rw [← hs]
    apply streamFileRegion_unchanged hu
    show start + spanLength start stop ≤ content.length
    omega

/-- **The response to a range is well formed unless the range is inverted.** -/
theorem served_iff {file : ServedFile} {range : Str} (hrange : range ≠ []) :
    RangeServed file range ↔ Upright file range := by
  constructor
  · intro h ha hm stat hst first last ht hne hf hs
    obtain ⟨mimetype, hm⟩ := Option.ne_none_iff_exists'.mp hm
    have hsz := stat.size_lt
    have he : EndsAt last stat.size (digitsVal last) := by
      rw [EndsAt, if_neg hne]
      exact ⟨hf, rfl⟩
    have hp := parseRange_eq_ok_iff.mpr ⟨first, last, ht, ⟨by omega, rfl⟩, he⟩
    obtain ⟨stat', start', stop', f, hs', hsr⟩ := h _ ((buildFileResponse_eq_built_iff hrange).mpr
      ⟨ha, stat, mimetype, _, _, hst, hm, hp, hs, rfl⟩)
    cases hs'.symm.trans hst
    have hle := (servesSpan_iff hs (clampEnd_lt (by omega) _)).mp ⟨start', stop', f, hsr⟩
    exact (le_clampEnd_iff hs _).mp hle
  · intro h response hb
    obtain ⟨ha, stat, mimetype, start, stop, hst, hm, hp, hs, rfl⟩ :=
      (buildFileResponse_eq_built_iff hrange).mp hb
    obtain ⟨first, last, ht, ⟨-, rfl⟩, he⟩ := parseRange_eq_ok_iff.mp hp
    have hle : digitsVal first ≤ stop := by
      unfold EndsAt at he
      split at he
      · omega
      · next hne =>
        rw [← he.2]
        exact h ha (by simp [hm]) stat hst first last ht hne he.1 hs
    obtain ⟨start', stop', f, hsr⟩ :=
      (servesSpan_iff hs (clampEnd_lt (by omega) _)).mpr ((le_clampEnd_iff hs stop).mpr hle)
    exact ⟨stat, start', stop', f, hst, hsr⟩

theorem ten_lt : 10 < 2 ^ 63 := by decide

def tenBytes : ServedFile :=
  ⟨true, some ⟨10, ten_lt, txt "Thu, 01 Jan 1970 00:00:00 GMT"⟩, some (txt "text/plain"), true, true,
    [.data [2, 3, 4], .interrupted, .data [5, 6, 7, 8, 9]]⟩

def tenResponse (named : Str) (body : Body) : ServeResponse :=
  ⟨206, fileHeaders (txt "text/plain") (txt "Thu, 01 Jan 1970 00:00:00 GMT") ++ [(txt "Content-Range", named)], body⟩

theorem buildFileResponse_tenBytes (range : Str) (start stop : ℕ) (hr : range ≠ [])
    (hp : parseRange range 10 = .ok (start, stop)) (hs : start < 10) :
    buildFileResponse tenBytes (some range) =
      .built (tenResponse (contentRange start (clampEnd 10 stop) 10)
        (tenBytes.bodyAt start (spanLength start (clampEnd 10 stop)))) :=
  (buildFileResponse_eq_built_iff hr).mpr ⟨rfl, _, _, start, stop, rfl, rfl, hp, hs, rfl⟩

theorem inverted_range_is_served :
    (buildFileResponse tenBytes (some (txt "bytes=5-2")) =
        .built (tenResponse (txt "bytes 5-2/10") (.file ⟨true, true, tenBytes.reads, 5, 2 ^ 64 - 2⟩)) ∧
      ¬ RangeServed tenBytes (txt "bytes=5-2")) ∧
    buildFileResponse tenBytes (some (txt "bytes=5-4")) =
        .built (tenResponse (txt "bytes 5-4/10") .empty) ∧
      ¬ RangeServed tenBytes (txt "bytes=5-4") := by
  have hw : buildFileResponse tenBytes (some (txt "bytes=5-2")) =
      .built (tenResponse (txt "bytes 5-2/10") (.file ⟨true, true, tenBytes.reads, 5, 2 ^ 64 - 2⟩)) :=
    buildFileResponse_tenBytes (txt "bytes=5-2") 5 2 (by decide) rfl (by decide)
  have he : buildFileResponse tenBytes (some (txt "bytes=5-4")) =
      .built (tenResponse (txt "bytes 5-4/10") .empty) :=
    buildFileResponse_tenBytes (txt "bytes=5-4") 5 4 (by decide) rfl (by decide)
  refine ⟨⟨hw, ?_⟩, he, ?_⟩
  · intro h
    obtain ⟨stat, start, stop, f, -, hs⟩ := h _ hw
    have hl := hs.length
    rw [← Body.file.inj hs.body] at hl
    have hsz := stat.size_lt
    have hi := hs.inside
    dsimp only at hl
    omega
  · intro h
    obtain ⟨stat, start, stop, f, -, hs⟩ := h _ he
    have hb := hs.body
    cases hb

theorem long_range_is_served :
    txt "bytes=2-40" ≠ [] ∧ RangeServed tenBytes (txt "bytes=2-40") ∧
      buildFileResponse tenBytes (some (txt "bytes=2-40")) =
        .built (tenResponse (txt "bytes 2-9/10") (.file ⟨true, true, tenBytes.reads, 2, 8⟩)) ∧
      FileBody.Unchanged ⟨true, true, tenBytes.reads, 2, 8⟩ [0, 1, 2, 3, 4, 5, 6, 7, 8, 9] := by
  have hne : txt "bytes=2-40" ≠ [] := by decide
  refine ⟨hne, (served_iff hne).mpr ?_, buildFileResponse_tenBytes _ 2 40 hne rfl (by decide), rfl, rfl, ?_⟩
  · intro _ _ stat _ first last ht _ _ _
    have hm : matchRange (txt "bytes=2-40") = some (txt "2", txt "40") := rfl
    have hg := (matchRange_eq_some_iff.mpr ht).symm.trans hm
    cases hg
    decide
  · simp [tenBytes, ReadsFrom, readUpTo, fileChunk]

end Sipi.Serve
