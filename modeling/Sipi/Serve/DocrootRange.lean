import Sipi.Serve.Range

/-!
# The other reader of a range

The `/server` docroot answers a range without the engine: `static_binary` of `src/server-rs/src/routes.rs`, with
`parse_byte_range` for the header.
-/

namespace Sipi.Serve

open Sipi.Iiif Sipi.Theory

/-- `char::is_whitespace`. -/
def isWhitespace (c : Char) : Bool :=
  isSpace c || decide (c.toNat ∈ [0x85, 0xa0, 0x1680, 0x2028, 0x2029, 0x202f, 0x205f, 0x3000]) ||
    (decide (0x2000 ≤ c.toNat) && decide (c.toNat ≤ 0x200a))

/-- `str::trim_start`. -/
def trimStart (s : Str) : Str := s.dropWhile isWhitespace

/-- `str::trim`. -/
def trim (s : Str) : Str := (trimStart s).rdropWhile isWhitespace

/-- `str::split_once`, at a character. -/
def splitOnce (d : Char) (s : Str) : Option (Str × Str) :=
  if d ∈ s then some (s.takeWhile (· ≠ d), (s.dropWhile (· ≠ d)).tail) else none

/-- `leading_u64`. -/
def leadingU64 (s : Str) : Option ℕ := parseUsize (s.takeWhile Char.isDigit)

/-- The end of `parse_byte_range`. -/
def cutRange (start stop fsize : ℕ) : Option (ℕ × ℕ) :=
  if fsize ≤ start then none
  else if min stop (fsize - 1) < start then none
  else some (start, min stop (fsize - 1))

/-- `parse_byte_range`. -/
def parseByteRange (raw : Str) (fsize : ℕ) : Option (ℕ × ℕ) := do
  let body ← (trim raw).dropPrefix? (txt "bytes=")
  let (s, e) ← splitOnce '-' (trimStart body)
  let start ← leadingU64 (trimStart s)
  cutRange start ((leadingU64 (trimStart e)).getD (fsize - 1)) fsize

/-- What `std::fs::metadata` gives. -/
structure StaticMeta where
  size : ℕ
  modified : Option Str

/-- `StaticOutcome`, without the path of the file. -/
inductive StaticOutcome where
  | stream (status : ℤ) (headers : List Header) (offset length : ℕ)
  | head (status : ℤ) (headers : List Header)
  | err (status : ℤ)

/-- The headers that do not depend on the range. -/
def staticHeaders (info : StaticMeta) (mime : Str) (origin : Option Str) : List Header :=
  [(txt "content-type", mime), (txt "cache-control", txt "public, must-revalidate, max-age=0"),
      (txt "pragma", txt "no-cache"), (txt "accept-ranges", txt "bytes")] ++
    (info.modified.toList.map fun date => (txt "last-modified", date)) ++
    origin.toList.map fun o => (txt "access-control-allow-origin", o)

/-- A region of the file, or its headers. -/
def staticServed (isHead : Bool) (status : ℤ) (headers : List Header) (offset length : ℕ) : StaticOutcome :=
  if isHead then .head status headers else .stream status headers offset length

/-- `static_binary`. -/
def staticBinary (info : Option StaticMeta) (infile mime : Str) (range : Option Str) (isHead : Bool)
    (origin : Option Str) : StaticOutcome :=
  match info with
  | none => .err 404
  | some info =>
    match range with
    | none => staticServed isHead 200 (staticHeaders info mime origin) 0 info.size
    | some raw =>
      match parseByteRange raw info.size with
      | none => .err 500
      | some (start, stop) =>
        staticServed isHead 206
          (staticHeaders info mime origin ++
            [(txt "content-range", contentRange start stop info.size),
              (txt "content-disposition", txt "inline; filename=" ++ infile)])
          start (stop - start + 1)

/-- The values under a name. -/
def valuesOf (name : Str) (headers : List Header) : List Str := (headers.filter fun h => h.1 = name).map Prod.snd

/-- The body is this region of the file. -/
def Body.Covers : Body → ℕ → ℕ → Prop
  | .empty, _, length => length = 0
  | .file f, offset, length => f.offset = offset ∧ f.length = length
  | .stream _, _, _ => False

/-- **The same decision** of both. -/
def SameDecision : StaticOutcome → Building → Prop
  | .err _, .built _ => False
  | .err _, _ => True
  | .head status headers, .built r =>
    status = r.httpStatus ∧ valuesOf (txt "content-range") headers = valuesOf (txt "Content-Range") r.headers
  | .stream status headers offset length, .built r =>
    status = r.httpStatus ∧ valuesOf (txt "content-range") headers = valuesOf (txt "Content-Range") r.headers ∧
      r.body.Covers offset length
  | _, _ => False

/-- What the hand-written parser takes for a range. -/
structure LooseText (range first last : Str) : Prop where
  text : ∃ lead blanks junk gap rest,
    range = lead ++ (txt "bytes=" ++ (blanks ++ (first ++ (junk ++ '-' :: (gap ++ (last ++ rest)))))) ∧
    (∀ c ∈ lead, isWhitespace c = true) ∧ (∀ c ∈ blanks, isWhitespace c = true) ∧
    (∀ c ∈ gap, isWhitespace c = true) ∧ '-' ∉ junk ∧ (∀ c t, junk = c :: t → c.isDigit = false) ∧
    (∀ c t, last ++ rest = c :: t → isWhitespace c = false) ∧ ∀ c t, rest = c :: t → c.isDigit = false
  number : first ∈ Grammar.posint
  digits : ∀ c ∈ last, c.isDigit = true

/-- No header, or a range that fits both. -/
def RangesAgree (range : Option Str) (fsize : ℕ) : Prop :=
  ∀ value, range = some value → value ≠ [] ∧
    ∀ first last, LooseText value first last → digitsVal first < fsize →
      digitsVal last < 2 ^ 64 ∧ (RangeText value first last ↔ last = [] ∨ digitsVal first ≤ digitsVal last)

/-! ### What the parser reads -/

variable {c : Char}

theorem isWhitespace_of_isDigit (h : c.isDigit = true) : isWhitespace c = false := by
  have hc : 48 ≤ c.toNat ∧ c.toNat ≤ 57 := by
    simpa [Char.isDigit, UInt32.le_iff_toNat_le] using h
  have hs := isSpace_of_isDigit h
  simp only [isWhitespace, hs, Bool.false_or, Bool.or_eq_false_iff, Bool.and_eq_false_iff, decide_eq_false_iff_not,
    List.mem_cons, List.not_mem_nil, or_false]
  omega

theorem isWhitespace_of_isSpace (h : isSpace c = true) : isWhitespace c = true := by
  simp [isWhitespace, h]

theorem isDigit_of_isWhitespace (h : isWhitespace c = true) : c.isDigit = false := by
  by_contra hd
  rw [isWhitespace_of_isDigit (Bool.eq_true_of_not_eq_false hd)] at h
  cases h

theorem splitOnce_eq_some_iff {d : Char} {s u v : Str} : splitOnce d s = some (u, v) ↔ s = u ++ d :: v ∧ d ∉ u := by
  unfold splitOnce
  split_ifs with hs
  · obtain ⟨a, b, rfl, ha⟩ := List.eq_append_cons_of_mem hs
    obtain ⟨ht, hd⟩ : (a ++ d :: b).takeWhile (· ≠ d) = a ∧ (a ++ d :: b).dropWhile (· ≠ d) = d :: b := by
      apply takeWhile_dropWhile_eq_iff.mpr
      refine ⟨rfl, fun c hc => ?_, fun c t hct => ?_⟩
      · exact decide_eq_true fun heq => ha (heq ▸ hc)
      · simp [← (List.cons.inj hct).1]
    rw [ht, hd, List.tail_cons, Option.some.injEq, Prod.mk.injEq]
    constructor
    · rintro ⟨rfl, rfl⟩
      exact ⟨rfl, ha⟩
    · rintro ⟨heq, hu⟩
      exact append_sep_inj ha hu heq
  · constructor
    · intro h
      cases h
    · rintro ⟨rfl, -⟩
      exact absurd (by simp) hs

/-- The digits that `parse_byte_range` finds. -/
def scanRange (raw : Str) : Option (Str × Str) := do
  let body ← (trim raw).dropPrefix? (txt "bytes=")
  let (s, e) ← splitOnce '-' (trimStart body)
  return ((trimStart s).takeWhile Char.isDigit, (trimStart e).takeWhile Char.isDigit)

theorem parseByteRange_eq (raw : Str) (fsize : ℕ) :
    parseByteRange raw fsize = (scanRange raw).bind fun d =>
      (parseUsize d.1).bind fun start => cutRange start ((parseUsize d.2).getD (fsize - 1)) fsize := by
  unfold parseByteRange scanRange
  cases (trim raw).dropPrefix? (txt "bytes=") with
  | none => rfl
  | some body =>
    cases h : splitOnce '-' (trimStart body) with
    | none => simp [h]
    | some se => simp [h, leadingU64]

theorem exists_trimStart (s : Str) :
    ∃ lead, s = lead ++ trimStart s ∧ (∀ c ∈ lead, isWhitespace c = true) ∧
      ∀ c t, trimStart s = c :: t → isWhitespace c = false :=
  ⟨_, takeWhile_dropWhile_eq_iff.mp ⟨rfl, rfl⟩⟩

theorem trimStart_append {lead r : Str} (hl : ∀ c ∈ lead, isWhitespace c = true)
    (hr : ∀ c t, r = c :: t → isWhitespace c = false) : trimStart (lead ++ r) = r :=
  (takeWhile_dropWhile_eq_iff.mpr ⟨rfl, hl, hr⟩).2

theorem trimStart_of_head {r : Str} (hr : ∀ c t, r = c :: t → isWhitespace c = false) : trimStart r = r := by
  have ht := trimStart_append (List.forall_mem_nil _) hr
  rwa [List.nil_append] at ht

theorem head_digits {digits r : Str} (hne : digits ≠ []) (h : ∀ c ∈ digits, c.isDigit = true) :
    ∀ c t, digits ++ r = c :: t → isWhitespace c = false := by
  intro c t hct
  obtain ⟨d, ds, rfl⟩ := List.exists_cons_of_ne_nil hne
  rw [← (List.cons.inj hct).1]
  exact isWhitespace_of_isDigit (h d List.mem_cons_self)

theorem digits_append_blanks {e trail : Str} (ht : ∀ c ∈ trail, isWhitespace c = true) :
    (trimStart (e ++ trail)).takeWhile Char.isDigit = (trimStart e).takeWhile Char.isDigit := by
  have hn : trail.takeWhile Char.isDigit = [] := by
    cases trail with
    | nil => rfl
    | cons c t => simp [isDigit_of_isWhitespace (ht c List.mem_cons_self)]
  unfold trimStart
  rw [List.dropWhile_append]
  split_ifs with ha
  · rw [List.isEmpty_iff] at ha
    rw [ha, List.dropWhile_eq_nil_iff.mpr ht]
  · rw [List.takeWhile_append, hn]
    split_ifs with hd
    · rw [List.append_nil]
      exact ((List.takeWhile_prefix _).eq_of_length hd).symm
    · rfl

variable {raw first last : Str}

theorem scanRange_of_looseText (h : LooseText raw first last) : scanRange raw = some (first, last) := by
  obtain ⟨⟨lead, blanks, junk, gap, rest, rfl, hld, hb, hg, hd, hj, he, hr⟩, ⟨hne, hf⟩,
    hl⟩ := h
  obtain ⟨trail, hs, ht⟩ := exists_rdropWhile isWhitespace (gap ++ (last ++ rest))
  have hd' : '-' ∉ first ++ junk := by
    intro hm
    rcases List.mem_append.mp hm with hm | hm
    · exact absurd (hf '-' hm) (by decide)
    · exact hd hm
  have htr : trim (lead ++ (txt "bytes=" ++ (blanks ++ (first ++ (junk ++ '-' :: (gap ++ (last ++ rest))))))) =
      txt "bytes=" ++ (blanks ++ ((first ++ junk) ++ '-' :: (gap ++ (last ++ rest)).rdropWhile isWhitespace)) := by
    rw [trim, trimStart_append hld]
    · have hk := rdropWhile_append_cons (by decide : isWhitespace '-' = false)
        (txt "bytes=" ++ (blanks ++ (first ++ junk))) (gap ++ (last ++ rest))
      simpa only [List.append_assoc] using hk
    · intro c t hct
      rw [← (List.cons.inj hct).1]
      decide
  have hbd : trimStart (blanks ++ ((first ++ junk) ++ '-' :: (gap ++ (last ++ rest)).rdropWhile isWhitespace)) =
      (first ++ junk) ++ '-' :: (gap ++ (last ++ rest)).rdropWhile isWhitespace := by
    apply trimStart_append hb
    rw [List.append_assoc]
    exact head_digits hne hf
  have hst : (trimStart (first ++ junk)).takeWhile Char.isDigit = first := by
    rw [trimStart_of_head (head_digits hne hf)]
    exact (takeWhile_dropWhile_eq_iff.mpr ⟨rfl, hf, hj⟩).1
  have hsp : (trimStart ((gap ++ (last ++ rest)).rdropWhile isWhitespace)).takeWhile Char.isDigit = last := by
    rw [← digits_append_blanks ht, ← hs, trimStart_append hg he]
    exact (takeWhile_dropWhile_eq_iff.mpr ⟨rfl, hl, hr⟩).1
  rw [scanRange, htr, dropPrefix?_eq_some.mpr rfl]
  simp only [Option.bind_eq_bind, Option.bind_some, hbd, splitOnce_eq_some_iff.mpr ⟨rfl, hd'⟩, hst, hsp]
  rfl

theorem looseText_of_scanRange (h : scanRange raw = some (first, last)) (hne : first ≠ []) :
    LooseText raw first last := by
  unfold scanRange at h
  obtain ⟨body, hbd, h⟩ := Option.bind_eq_some_iff.mp h
  obtain ⟨⟨s, e⟩, hd, h⟩ := Option.bind_eq_some_iff.mp h
  cases h
  obtain ⟨hsp, hd⟩ := splitOnce_eq_some_iff.mp hd
  obtain ⟨lead, hrw, hld, -⟩ := exists_trimStart raw
  obtain ⟨trail, htr, ht⟩ := exists_rdropWhile isWhitespace (trimStart raw)
  obtain ⟨blanks, hb', hb, hh⟩ := exists_trimStart body
  obtain ⟨gap, hg', hg, hen⟩ := exists_trimStart (e ++ trail)
  have hs : trimStart s = s := by
    apply trimStart_of_head
    rintro c t rfl
    exact hh c _ hsp
  rw [hs] at hne ⊢
  obtain ⟨hs', hf, hj⟩ := (takeWhile_dropWhile_eq_iff (p := Char.isDigit) (s := s)).mp ⟨rfl, rfl⟩
  obtain ⟨he, hl, hr⟩ :=
    (takeWhile_dropWhile_eq_iff (p := Char.isDigit) (s := trimStart (e ++ trail))).mp ⟨rfl, rfl⟩
  rw [← digits_append_blanks ht]
  refine ⟨⟨lead, blanks, s.dropWhile Char.isDigit, gap, (trimStart (e ++ trail)).dropWhile Char.isDigit, ?_, hld,
    hb, hg, fun hm => hd (List.dropWhile_subset _ hm), hj, ?_, hr⟩, ⟨hne, hf⟩, hl⟩
  · calc raw = lead ++ (trim raw ++ trail) := by rw [trim, ← htr, ← hrw]
      _ = lead ++ ((txt "bytes=" ++ (blanks ++ (s ++ '-' :: e))) ++ trail) := by
        rw [dropPrefix?_eq_some.mp hbd, ← hsp, ← hb']
      _ = lead ++ (txt "bytes=" ++ (blanks ++ (s ++ '-' :: (e ++ trail)))) := by simp only [List.append_assoc,
        List.cons_append]
      _ = _ := by
        conv_lhs => rw [hs', hg', he]
        simp only [List.append_assoc]
  · rwa [← he]

theorem RangeText.loose {range : Str} (h : RangeText range first last) : LooseText range first last := by
  obtain ⟨⟨spaces, tail, rfl, hs, hln, ht⟩, hf, hl⟩ := h
  have hb : ∀ c ∈ spaces, isWhitespace c = true := fun c hc => isWhitespace_of_isSpace (hs c hc)
  have hr : ∀ c t, tail = c :: t → c.isDigit = false := by
    rintro c t rfl
    exact ht c List.mem_cons_self
  by_cases hg : last = [] ∧ ∀ c ∈ tail, isWhitespace c = true
  · -- a blank after the dash
    obtain ⟨rfl, hg⟩ := hg
    exact ⟨⟨[], spaces, [], tail, [], by simp, by simp, hb, hg, by simp, by simp, by simp, by simp⟩, hf,
      hl⟩
  · refine ⟨⟨[], spaces, [], [], tail, by simp, by simp, hb, by simp, by simp, by simp, ?_, hr⟩, hf,
      hl⟩
    by_cases hl' : last = []
    · subst hl'
      intro c t hct
      obtain rfl : tail = c :: t := hct
      obtain rfl : t = [] := List.length_eq_zero_iff.mp (by simpa using hln)
      by_contra hbl
      exact hg ⟨rfl, by simpa using hbl⟩
    · exact head_digits hl' hl

theorem parseUsize_digits {digits : Str} (h : ∀ c ∈ digits, c.isDigit = true) :
    parseUsize digits = if digits ≠ [] ∧ digitsVal digits < 2 ^ 64 then some (digitsVal digits) else none := by
  by_cases hne : digits = []
  · subst hne
    rfl
  · rw [parseUsize_of_posint ⟨hne, h⟩]
    simp [hne]

/-- The last byte that is asked for. -/
def looseEnd (last : Str) (fsize : ℕ) : ℕ :=
  if last ≠ [] ∧ digitsVal last < 2 ^ 64 then digitsVal last else fsize - 1

variable {fsize : ℕ}

theorem parseByteRange_of_loose (h : LooseText raw first last) (hsz : fsize < 2 ^ 63) :
    parseByteRange raw fsize = cutRange (digitsVal first) (looseEnd last fsize) fsize := by
  rw [parseByteRange_eq, scanRange_of_looseText h, Option.bind_some, parseUsize_of_posint h.number,
    parseUsize_digits h.digits]
  have hs : (if last ≠ [] ∧ digitsVal last < 2 ^ 64 then some (digitsVal last) else none).getD (fsize - 1) =
      looseEnd last fsize := by
    unfold looseEnd
    split_ifs <;> rfl
  by_cases hf : digitsVal first < 2 ^ 64
  · rw [if_pos hf, Option.bind_some, hs]
  · rw [if_neg hf, Option.bind_none, cutRange, if_pos (by omega)]

theorem parseByteRange_of_not_loose (h : ∀ first last, ¬ LooseText raw first last) (fsize : ℕ) :
    parseByteRange raw fsize = none := by
  rw [parseByteRange_eq]
  cases hs : scanRange raw with
  | none => rfl
  | some d =>
    have he : d.1 = [] := by
      by_contra hne
      exact h d.1 d.2 (looseText_of_scanRange hs hne)
    rw [Option.bind_some, he]
    rfl

theorem LooseText.unique {first' last' : Str} (h : LooseText raw first last)
    (h' : LooseText raw first' last') : first' = first ∧ last' = last :=
  Prod.mk.inj (Option.some.inj ((scanRange_of_looseText h').symm.trans (scanRange_of_looseText h)))

/-! ### Both answers -/

section
variable (stat : FileStat) (modified : Option Str) (infile mime : Str) (origin : Option Str) (isHead : Bool)
variable (mimetype : Str) (opens seeks : Bool) (reads : List ReadResult)

/-- What the docroot answers for a file. -/
def docrootAnswer (range : Option Str) : StaticOutcome :=
  staticBinary (some ⟨stat.size, modified⟩) infile mime range isHead origin

/-- The same file for the engine. -/
def engineFile : ServedFile := ⟨true, some stat, some mimetype, opens, seeks, reads⟩

@[simp] theorem valuesOf_append (name : Str) (u v : List Header) :
    valuesOf name (u ++ v) = valuesOf name u ++ valuesOf name v := by
  simp [valuesOf]

theorem valuesOf_staticHeaders (info : StaticMeta) (mime : Str) (origin : Option Str) :
    valuesOf (txt "content-range") (staticHeaders info mime origin) = [] := by
  cases hm : info.modified <;> cases origin <;> simp [staticHeaders, hm] <;> rfl

theorem sameDecision_whole :
    SameDecision (docrootAnswer stat modified infile mime origin isHead none)
      (buildFileResponse (engineFile stat mimetype opens seeks reads) none) := by
  have hb : ((engineFile stat mimetype opens seeks reads).bodyAt 0 stat.size).Covers 0 stat.size := by
    unfold ServedFile.bodyAt
    split_ifs with hp
    · exact ⟨rfl, rfl⟩
    · exact Nat.eq_zero_of_not_pos hp
  have hr := valuesOf_staticHeaders ⟨stat.size, modified⟩ mime origin
  cases isHead with
  | true => exact ⟨rfl, hr⟩
  | false => exact ⟨rfl, hr, hb⟩

theorem sameDecision_span {start stop : ℕ} (hle : start ≤ stop) (hst : stop < stat.size)
    (hp : parseByteRange raw stat.size = some (start, stop)) :
    SameDecision (docrootAnswer stat modified infile mime origin isHead (some raw))
      (.built ((engineFile stat mimetype opens seeks reads).rangeResponse stat mimetype start stop)) := by
  have hs := stat.size_lt
  have hl := spanLength_of_le hle (by omega)
  have hr : valuesOf (txt "content-range") (staticHeaders ⟨stat.size, modified⟩ mime origin ++
      [(txt "content-range", contentRange start stop stat.size),
        (txt "content-disposition", txt "inline; filename=" ++ infile)]) = [contentRange start stop stat.size] := by
    rw [valuesOf_append, valuesOf_staticHeaders]
    rfl
  have hb : ((engineFile stat mimetype opens seeks reads).bodyAt start (spanLength start stop)).Covers start
      (stop - start + 1) := by
    rw [hl, ServedFile.bodyAt, if_pos (Nat.succ_pos _)]
    exact ⟨rfl, rfl⟩
  unfold docrootAnswer staticBinary
  simp only [hp]
  cases isHead with
  | true => exact ⟨rfl, hr⟩
  | false => exact ⟨rfl, hr, hb⟩

theorem sameDecision_refused_iff (hp : parseByteRange raw stat.size = none) (b : Building) :
    SameDecision (docrootAnswer stat modified infile mime origin isHead (some raw)) b ↔ ∀ r, b ≠ .built r := by
  unfold docrootAnswer staticBinary
  simp only [hp]
  cases b with
  | built r => exact ⟨False.elim, fun h => h r rfl⟩
  | refused | threw => exact ⟨fun _ => by simp, fun _ => trivial⟩

theorem exists_built_of_sameDecision {bounds : ℕ × ℕ}
    (hp : parseByteRange raw stat.size = some bounds) {b : Building}
    (h : SameDecision (docrootAnswer stat modified infile mime origin isHead (some raw)) b) : ∃ r, b = .built r := by
  unfold docrootAnswer staticBinary at h
  simp only [hp] at h
  cases b with
  | built r => exact ⟨r, rfl⟩
  | refused | threw => cases isHead <;> cases h

end

theorem endsAt_iff {stop : ℕ} : EndsAt last fsize stop ↔ digitsVal last < 2 ^ 64 ∧ looseEnd last fsize = stop := by
  unfold EndsAt looseEnd
  by_cases hl : last = []
  · subst hl
    simp [digitsVal]
  · rw [if_neg hl]
    constructor
    · rintro ⟨hf, rfl⟩
      exact ⟨hf, if_pos ⟨hl, hf⟩⟩
    · rintro ⟨hf, rfl⟩
      exact ⟨hf, (if_pos ⟨hl, hf⟩).symm⟩

section
variable {stat : FileStat} {mimetype : Str} {opens seeks : Bool} {reads : List ReadResult} {value first last : Str}

theorem engine_eq_built_iff (hne : value ≠ []) (h : LooseText value first last) {r : ServeResponse} :
    buildFileResponse (engineFile stat mimetype opens seeks reads) (some value) = .built r ↔
      RangeText value first last ∧ digitsVal first < stat.size ∧ digitsVal last < 2 ^ 64 ∧
        r = (engineFile stat mimetype opens seeks reads).rangeResponse stat mimetype (digitsVal first)
          (clampEnd stat.size (looseEnd last stat.size)) := by
  have hsz := stat.size_lt
  rw [buildFileResponse_eq_built_iff hne]
  constructor
  · rintro ⟨-, stat', mimetype', start, stop, hst, hm, hp, hs, rfl⟩
    cases hst
    cases hm
    obtain ⟨first', last', ht, ⟨-, rfl⟩, he⟩ := parseRange_eq_ok_iff.mp hp
    obtain ⟨rfl, rfl⟩ := h.unique ht.loose
    obtain ⟨hf, rfl⟩ := endsAt_iff.mp he
    exact ⟨ht, hs, hf, rfl⟩
  · rintro ⟨ht, hs, hf, rfl⟩
    have hp : parseRange value stat.size = .ok (digitsVal first, looseEnd last stat.size) :=
      parseRange_eq_ok_iff.mpr ⟨first, last, ht, ⟨by omega, rfl⟩, endsAt_iff.mpr ⟨hf, rfl⟩⟩
    exact ⟨rfl, stat, mimetype, _, _, rfl, rfl, hp, hs, rfl⟩

theorem engine_ne_built (hne : value ≠ []) (h : ∀ first last, ¬ LooseText value first last) (r : ServeResponse) :
    buildFileResponse (engineFile stat mimetype opens seeks reads) (some value) ≠ .built r := by
  intro hb
  obtain ⟨-, stat', mimetype', start, stop, -, -, hp, -⟩ := (buildFileResponse_eq_built_iff hne).mp hb
  obtain ⟨first, last, ht, -⟩ := parseRange_eq_ok_iff.mp hp
  exact h first last ht.loose

theorem rangesAgree_iff (hne : value ≠ []) (h : LooseText value first last) (fsize : ℕ) :
    RangesAgree (some value) fsize ↔ (digitsVal first < fsize →
      digitsVal last < 2 ^ 64 ∧ (RangeText value first last ↔ last = [] ∨ digitsVal first ≤ digitsVal last)) := by
  constructor
  · intro ha
    exact (ha value rfl).2 first last h
  · intro ha value' hv
    cases hv
    refine ⟨hne, fun first' last' h' => ?_⟩
    obtain ⟨rfl, rfl⟩ := h.unique h'
    exact ha

theorem parseByteRange_inside (h : LooseText value first last) (hsz : fsize < 2 ^ 63)
    (hs : digitsVal first < fsize) :
    parseByteRange value fsize =
      if last = [] ∨ digitsVal first ≤ digitsVal last then
        some (digitsVal first, clampEnd fsize (looseEnd last fsize)) else none := by
  have hc : min (looseEnd last fsize) (fsize - 1) = clampEnd fsize (looseEnd last fsize) := by
    unfold clampEnd
    split <;> omega
  have hi : clampEnd fsize (looseEnd last fsize) < digitsVal first ↔
      ¬ (last = [] ∨ digitsVal first ≤ digitsVal last) := by
    rw [← not_le, le_clampEnd_iff hs, looseEnd]
    split_ifs with hl
    · simp [hl.1]
    · by_cases hn : last = []
      · simp only [hn, true_or, not_true, not_le, iff_false]
        omega
      · have hlr : ¬ digitsVal last < 2 ^ 64 := fun hf => hl ⟨hn, hf⟩
        simp only [hn, false_or]
        omega
  rw [parseByteRange_of_loose h hsz, cutRange, if_neg (Nat.not_le.mpr hs), hc]
  by_cases ho : last = [] ∨ digitsVal first ≤ digitsVal last
  · rw [if_pos ho, if_neg (mt hi.mp (not_not.mpr ho))]
  · rw [if_neg ho, if_pos (hi.mpr ho)]

variable {modified : Option Str} {infile mime : Str} {origin : Option Str} {isHead : Bool}

theorem sameDecision_ordered_iff (hne : value ≠ []) (h : LooseText value first last)
    (hs : digitsVal first < stat.size) (ho : last = [] ∨ digitsVal first ≤ digitsVal last) :
    SameDecision (docrootAnswer stat modified infile mime origin isHead (some value))
        (buildFileResponse (engineFile stat mimetype opens seeks reads) (some value)) ↔
      digitsVal last < 2 ^ 64 ∧ RangeText value first last := by
  have hp := parseByteRange_inside h stat.size_lt hs
  rw [if_pos ho] at hp
  constructor
  · intro hsm
    obtain ⟨r, hb⟩ := exists_built_of_sameDecision _ _ _ _ _ _ hp hsm
    obtain ⟨ht, -, hf, -⟩ := (engine_eq_built_iff hne h).mp hb
    exact ⟨hf, ht⟩
  · rintro ⟨hf, ht⟩
    rw [(engine_eq_built_iff hne h).mpr ⟨ht, hs, hf, rfl⟩]
    refine sameDecision_span _ _ _ _ _ _ _ _ _ _ ?_ (clampEnd_lt (by omega) _) hp
    rw [le_clampEnd_iff hs, looseEnd]
    split_ifs with hl
    · exact ho.resolve_left hl.1
    · omega

theorem sameDecision_inverted_iff (hne : value ≠ []) (h : LooseText value first last)
    (hs : digitsVal first < stat.size) (hi : ¬ (last = [] ∨ digitsVal first ≤ digitsVal last)) :
    SameDecision (docrootAnswer stat modified infile mime origin isHead (some value))
        (buildFileResponse (engineFile stat mimetype opens seeks reads) (some value)) ↔
      ¬ RangeText value first last := by
  have hsz := stat.size_lt
  have hp := parseByteRange_inside h hsz hs
  rw [if_neg hi] at hp
  rw [sameDecision_refused_iff _ _ _ _ _ _ hp]
  obtain ⟨-, hlt⟩ := not_or.mp hi
  constructor
  · intro hr ht
    exact hr _ ((engine_eq_built_iff hne h).mpr ⟨ht, hs, by omega, rfl⟩)
  · intro ht r hb
    exact ht ((engine_eq_built_iff hne h).mp hb).1

theorem sameDecision_beyond (hne : value ≠ []) (h : LooseText value first last) (hs : stat.size ≤ digitsVal first) :
    SameDecision (docrootAnswer stat modified infile mime origin isHead (some value))
      (buildFileResponse (engineFile stat mimetype opens seeks reads) (some value)) := by
  have hp : parseByteRange value stat.size = none := by
    rw [parseByteRange_of_loose h stat.size_lt, cutRange, if_pos hs]
  rw [sameDecision_refused_iff _ _ _ _ _ _ hp]
  intro r hb
  exact hs.not_gt ((engine_eq_built_iff hne h).mp hb).2.1

end

/-- **When the two file servers take the same decision**, for a file of any size and any header. -/
theorem sameDecision_iff (stat : FileStat) (modified : Option Str) (infile mime : Str) (origin : Option Str)
    (isHead : Bool) (mimetype : Str) (opens seeks : Bool) (reads : List ReadResult) (range : Option Str) :
    SameDecision (docrootAnswer stat modified infile mime origin isHead range)
        (buildFileResponse (engineFile stat mimetype opens seeks reads) range) ↔
      RangesAgree range stat.size := by
  cases range with
  | none => exact iff_of_true (sameDecision_whole ..) fun value hv => by cases hv
  | some value =>
    by_cases hne : value = []
    · subst hne
      refine iff_of_false ?_ fun ha => (ha [] rfl).1 rfl
      intro hsm
      exact (sameDecision_refused_iff stat modified infile mime origin isHead rfl _).mp hsm _ rfl
    by_cases hl : ∃ first last, LooseText value first last
    · obtain ⟨first, last, h⟩ := hl
      rw [rangesAgree_iff hne h]
      rcases Nat.lt_or_ge (digitsVal first) stat.size with hs | hs
      · rw [imp_iff_right hs]
        by_cases ho : last = [] ∨ digitsVal first ≤ digitsVal last
        · rw [sameDecision_ordered_iff hne h hs ho, iff_true_right ho]
        · have hf : digitsVal last < 2 ^ 64 := by
            have hsz := stat.size_lt
            have hlt := (not_or.mp ho).2
            omega
          rw [sameDecision_inverted_iff hne h hs ho, iff_false_right ho, and_iff_right hf]
      · exact iff_of_true (sameDecision_beyond hne h hs) fun hlt => absurd hlt hs.not_gt
    · push Not at hl
      refine iff_of_true ?_ ?_
      · rw [sameDecision_refused_iff _ _ _ _ _ _ (parseByteRange_of_not_loose hl _)]
        exact engine_ne_built hne hl
      · intro value' hv
        cases hv
        exact ⟨hne, fun first last h => absurd h (hl first last)⟩

def tenDocroot (range : Str) : StaticOutcome :=
  staticBinary (some ⟨10, none⟩) (txt "./server/ten.txt") (txt "text/plain") (some range) false none

theorem tenDocroot_disagrees {range : Str} {bounds : ℕ × ℕ} {e : RangeFail} (hne : range ≠ [])
    (hr : parseByteRange range 10 = some bounds) (hf : parseRange range 10 = .error e) :
    ¬ SameDecision (tenDocroot range) (buildFileResponse tenBytes (some range)) := by
  intro hs
  obtain ⟨r, hb⟩ := exists_built_of_sameDecision ⟨10, ten_lt, []⟩ none _ _ none false hr hs
  obtain ⟨-, stat, mimetype, start, stop, hst, -, hp, -⟩ := (buildFileResponse_eq_built_iff hne).mp hb
  rw [← Option.some.inj hst] at hp
  cases hf.symm.trans hp

theorem ranges_disagree :
    (parseByteRange (txt "bytes=0-1,3-4") 10 = some (0, 1) ∧
      ¬ SameDecision (tenDocroot (txt "bytes=0-1,3-4")) (buildFileResponse tenBytes (some (txt "bytes=0-1,3-4")))) ∧
    (parseByteRange (txt "bytes=0-18446744073709551616") 10 = some (0, 9) ∧
      ¬ SameDecision (tenDocroot (txt "bytes=0-18446744073709551616"))
        (buildFileResponse tenBytes (some (txt "bytes=0-18446744073709551616")))) ∧
    (parseByteRange (txt "bytes=5-2") 10 = none ∧
      ¬ SameDecision (tenDocroot (txt "bytes=5-2")) (buildFileResponse tenBytes (some (txt "bytes=5-2")))) ∧
    ¬ SameDecision (tenDocroot []) (buildFileResponse tenBytes (some [])) := by
  have hs : parseByteRange (txt "bytes=0-1,3-4") 10 = some (0, 1) := by decide +kernel
  have hl : parseByteRange (txt "bytes=0-18446744073709551616") 10 = some (0, 9) := by decide +kernel
  have hi : parseByteRange (txt "bytes=5-2") 10 = none := by decide +kernel
  refine ⟨⟨hs, tenDocroot_disagrees (e := .malformed) (by decide) hs (by decide +kernel)⟩,
    ⟨hl, tenDocroot_disagrees (e := .outOfRange) (by decide) hl (by decide +kernel)⟩, ⟨hi, ?_⟩, ?_⟩
  · intro hsm
    exact (sameDecision_refused_iff ⟨10, ten_lt, []⟩ none _ _ none false hi _).mp hsm _
      (buildFileResponse_tenBytes (txt "bytes=5-2") 5 2 (by decide) rfl (by decide))
  · intro hsm
    exact (sameDecision_refused_iff ⟨10, ten_lt, []⟩ none _ _ none false rfl _).mp hsm _ rfl

end Sipi.Serve
