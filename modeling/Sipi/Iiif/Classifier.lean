import Sipi.Iiif.Request

/-!
# The C++ classifier, and the Rust port of it

`parse_iiif_uri` of `src/iiifparser/cpp/classifier/iiif_handler.cpp` is the reference that `parse_request` was
ported from.
-/

namespace Sipi.Iiif.Cpp

/-! ### Validators -/

/-- `consume_posint`: take off the digits. -/
def consumePosint (s : Str) : Option Str :=
  let i := (s.takeWhile Char.isDigit).length
  if i = 0 then none else some (s.drop i)

/-- `starts_with_consume`. -/
def startsWithConsume (s w : Str) : Option Str :=
  if s.length < w.length ∨ s.take w.length ≠ w then none else some (s.drop w.length)

/-- Take off the character `c`. -/
def frontConsume (s : Str) (c : Char) : Option Str :=
  match s with
  | [] => none
  | d :: t => if d = c then some t else none

/-- `consume_posfloat`. -/
def consumePosfloat (s : Str) : Option Str := do
  let s ← consumePosint s
  match frontConsume s '.' with
  | some tail => consumePosint tail
  | none => some s

/-- The loop of `is_valid_qualform`. -/
def qualformLoop (s : Str) : List Str → Bool
  | [] => false
  | q :: qs =>
    match startsWithConsume s q with
    | some s =>
      match startsWithConsume s ['.'] with
      | some s => [txt "jpg", txt "tif", txt "png", txt "jp2"].any (s = ·)
      | none => false
    | none => qualformLoop s qs

/-- `is_valid_qualform`. -/
def isValidQualform (s : Str) : Bool :=
  qualformLoop s [txt "color", txt "gray", txt "bitonal", txt "default"]

/-- `is_valid_rotation`. -/
def isValidRotation (s : Str) : Bool := consumePosfloat ((frontConsume s '!').getD s) == some []

/-- `is_valid_size`. -/
def isValidSize (s : Str) : Bool :=
  let s := (frontConsume s '^').getD s
  if s = txt "max" then true
  else
    match startsWithConsume s (txt "pct:") with
    | some s => consumePosfloat s == some []
    | none =>
      let hasBang := (frontConsume s '!').isSome
      let s := (frontConsume s '!').getD s
      match frontConsume s ',' with
      | some s => if hasBang then false else consumePosint s == some []
      | none =>
        match consumePosint s with
        | none => false
        | some s =>
          match startsWithConsume s [','] with
          | none => false
          | some s => if s.isEmpty then !hasBang else consumePosint s == some []

/-- The loop of `is_valid_region`. -/
def regionLoop (consume : Str → Option Str) (s : Str) : Option Str :=
  (List.range 4).foldlM (fun s i => (if 0 < i then startsWithConsume s [','] else some s).bind consume) s

/-- `is_valid_region`. -/
def isValidRegion (s : Str) : Bool :=
  if s = txt "full" ∨ s = txt "square" then true
  else
    match startsWithConsume s (txt "pct:") with
    | some s => regionLoop consumePosfloat s == some []
    | none => regionLoop consumePosint s == some []

theorem consumePosint_eq : consumePosint = Iiif.consumePosint := by
  funext s
  have hi : (s.takeWhile Char.isDigit).length = s.findIdx fun a => !a.isDigit := by
    induction s with
    | nil => rfl
    | cons c t ih => cases hc : c.isDigit <;> simp [List.findIdx_cons, hc, ih]
  simp only [consumePosint, Iiif.consumePosint, Theory.readRun, hi]

theorem startsWithConsume_eq (s w : Str) : startsWithConsume s w = s.dropPrefix? w := by
  unfold startsWithConsume
  split
  · next h =>
    symm
    by_contra hne
    obtain ⟨r, hr⟩ := Option.ne_none_iff_exists'.mp hne
    rw [Theory.dropPrefix?_eq_some.mp hr] at h
    simp at h
  · next h =>
    push Not at h
    symm
    rw [Theory.dropPrefix?_eq_some]
    conv_lhs => rw [← List.take_append_drop w.length s, h.2]

theorem frontConsume_eq (s : Str) (c : Char) : frontConsume s c = s.dropPrefix? [c] := by
  unfold frontConsume
  cases s with
  | nil => rfl
  | cons d t =>
    by_cases h : d = c
    · subst h
      simpa using (Theory.dropPrefix?_eq_some.mpr rfl : (d :: t).dropPrefix? [d] = some t).symm
    · rw [Theory.dropPrefix?_cons_of_ne [] t h]
      simp [h]

theorem consumePosfloat_eq : consumePosfloat = Iiif.consumePosfloat := by
  funext s
  simp only [consumePosfloat, Iiif.consumePosfloat, consumePosint_eq, frontConsume_eq]
  cases Iiif.consumePosint s with
  | none => rfl
  | some t => cases ht : t.dropPrefix? ['.'] <;> simp [Theory.readOptional, ht]

theorem isValidQualform_eq : isValidQualform = Iiif.isValidQualform := by
  funext s
  have hl : ∀ qs, qualformLoop s qs =
      ((qs.findSome? fun q => s.dropPrefix? q).bind fun rest => rest.dropPrefix? ['.']).any FORMATS.contains := by
    intro qs
    induction qs with
    | nil => rfl
    | cons q qs ih =>
      rw [qualformLoop, startsWithConsume_eq, List.findSome?_cons]
      cases s.dropPrefix? q with
      | none => exact ih
      | some r =>
        simp only [startsWithConsume_eq, Option.bind_some]
        cases r.dropPrefix? ['.'] with
        | none => rfl
        | some fmt => simp [FORMATS]
  refine (hl QUALITIES).trans ?_
  rw [Iiif.isValidQualform]
  cases QUALITIES.findSome? fun q => s.dropPrefix? q with
  | none => rfl
  | some r =>
    dsimp only [Option.bind_some]
    cases r.dropPrefix? ['.'] <;> rfl

theorem isValidRotation_eq : isValidRotation = Iiif.isValidRotation := by
  funext s
  simp only [isValidRotation, Iiif.isValidRotation, consumePosfloat_eq, frontConsume_eq]

theorem isValidSize_eq : isValidSize = Iiif.isValidSize := by
  funext s
  simp only [isValidSize, Iiif.isValidSize, consumePosfloat_eq, consumePosint_eq, frontConsume_eq, startsWithConsume_eq]
  generalize (s.dropPrefix? ['^']).getD s = u
  by_cases hm : u = txt "max"
  · rw [if_pos hm, if_pos hm]
  rw [if_neg hm, if_neg hm]
  cases u.dropPrefix? (txt "pct:") with
  | some p => rfl
  | none =>
    generalize (u.dropPrefix? ['!']).getD u = v
    cases v.dropPrefix? [','] with
    | some r => rfl
    | none =>
      cases Iiif.consumePosint v with
      | none => rfl
      | some r => cases hr : r.dropPrefix? [','] <;> simp [hr]

theorem isValidRegion_eq : isValidRegion = Iiif.isValidRegion := by
  funext s
  simp only [isValidRegion, Iiif.isValidRegion, regionLoop, consumePosfloat_eq, consumePosint_eq, startsWithConsume_eq]
  by_cases hw : s = txt "full" ∨ s = txt "square"
  · rw [if_pos hw, if_pos hw]
  rw [if_neg hw, if_neg hw]
  cases s.dropPrefix? (txt "pct:") <;> rfl

/-- `RequestType`. No result is `UNDEFINED`. -/
inductive RequestType where
  | iiif
  | infoJson
  | knoraJson
  | redirect
  | fileDownload
  | undefined
  deriving DecidableEq, Repr

/-- `IIIFUriParseResult`. -/
structure IIIFUriParseResult where
  requestType : RequestType
  params : List Str
  deriving DecidableEq, Repr

/-- The catch-all error. -/
def notCorrectlyFormatted : Str := txt "IIIF url not correctly formatted"

/-- The error if only the quality is bad. -/
def errorInQuality (last : Str) : Str :=
  txt "IIIF url not correctly formatted:" ++ txt " Error in quality: \"" ++ last ++ txt "\"!"

/-- A slash before every segment but the first. -/
def prefixByIndex (parts : List Str) : Str :=
  parts.zipIdx.foldl (fun acc p => (if 0 < p.2 then acc ++ ['/'] else acc) ++ p.1) []

/-- A slash once there is some text. -/
def pushUnlessEmpty (acc p : Str) : Str := (if acc ≠ [] then acc ++ ['/'] else acc) ++ p

/-- The loop of the `file` branch. -/
def prefixSkipping (parts : List Str) : Str := parts.foldl pushUnlessEmpty []

/-- The loop that refuses an empty segment. -/
def prefixStrict (parts : List Str) : Except Str Str :=
  parts.foldlM (fun acc p => if p = [] then .error notCorrectlyFormatted else .ok (pushUnlessEmpty acc p)) []

/-- All but the last `k` segments, by `loop`. -/
def leadingPrefix (loop : List Str → Str) (parts : List Str) (k : ℕ) : Except Str Str :=
  if k + 1 ≤ parts.length then .ok (loop (parts.take (parts.length - k)))
  else if parts.length = k then .ok []
  else .error notCorrectlyFormatted

/-- `info.json`, `knora.json` and `file`. -/
def namedRequest (kind : RequestType) (loop : List Str → Str) (parts : List Str) :
    Except Str IIIFUriParseResult := do
  let iiifPrefix ← leadingPrefix loop parts 2
  return ⟨kind, [iiifPrefix, fromEnd parts 2]⟩

/-- The result of an image request. -/
def imageRequest (parts : List Str) : Except Str IIIFUriParseResult := do
  let iiifPrefix ← leadingPrefix prefixByIndex parts 5
  return ⟨.iiif, [iiifPrefix, fromEnd parts 5, fromEnd parts 4, fromEnd parts 3, fromEnd parts 2, fromEnd parts 1]⟩

/-- The result of a redirect. -/
def redirectRequest (parts : List Str) : Except Str IIIFUriParseResult := do
  let iiifPrefix ← if 2 ≤ parts.length then prefixStrict (parts.take (parts.length - 1)) else .ok []
  return ⟨.redirect, [iiifPrefix, fromEnd parts 1]⟩

/-- `qualform_ok`. -/
def qualformOk (parts : List Str) : Bool := !parts.isEmpty && isValidQualform (fromEnd parts 1)

/-- `rotation_ok`. -/
def rotationOk (parts : List Str) : Bool :=
  decide (1 < parts.length) && isValidRotation (fromEnd parts 2)

/-- `size_ok`. -/
def sizeOk (parts : List Str) : Bool := decide (2 < parts.length) && isValidSize (fromEnd parts 3)

/-- `region_ok`. -/
def regionOk (parts : List Str) : Bool :=
  decide (3 < parts.length) && isValidRegion (fromEnd parts 4)

/-- `parse_iiif_uri` on the decoded segments. -/
def parseSegments (parts : List Str) : Except Str IIIFUriParseResult :=
  if parts = [] then .error (txt "No parameters/path given")
  else if '.' ∈ fromEnd parts 1 then
    if qualformOk parts && rotationOk parts && sizeOk parts && regionOk parts then imageRequest parts
    else if (fromEnd parts 1).takeWhile (· ≠ '.') = txt "info" ∧
        ((fromEnd parts 1).dropWhile (· ≠ '.')).tail = txt "json" then namedRequest .infoJson prefixByIndex parts
    else if (fromEnd parts 1).takeWhile (· ≠ '.') = txt "knora" ∧
        ((fromEnd parts 1).dropWhile (· ≠ '.')).tail = txt "json" then namedRequest .knoraJson prefixByIndex parts
    else if qualformOk parts then .error notCorrectlyFormatted
    else if rotationOk parts && sizeOk parts && regionOk parts then .error (errorInQuality (fromEnd parts 1))
    else redirectRequest parts
  else if fromEnd parts 1 = txt "file" then namedRequest .fileDownload prefixSkipping parts
  else if rotationOk parts && sizeOk parts && regionOk parts then .error (errorInQuality (fromEnd parts 1))
  else redirectRequest parts

/-- `parse_iiif_uri`. -/
def parseIiifUri (uri : Str) : Except Str IIIFUriParseResult := parseSegments (tokenize uri)

variable (parts : List Str)

theorem prefixByIndex_eq : prefixByIndex parts = join parts := by
  have hl : ∀ (parts : List Str) (acc : Str) (i : ℕ), 0 < i →
      (parts.zipIdx i).foldl (fun acc p => (if 0 < p.2 then acc ++ ['/'] else acc) ++ p.1) acc =
        join (acc :: parts) := by
    intro parts
    induction parts with
    | nil => intro acc i _; simp [join]
    | cons p ps ih =>
      intro acc i hi
      rw [List.zipIdx_cons, List.foldl_cons, if_pos hi, ih _ _ (Nat.succ_pos i)]
      cases ps <;> simp [join, List.intercalate_cons_cons]
  cases parts with
  | nil => rfl
  | cons p ps =>
    rw [prefixByIndex, List.zipIdx_cons, List.foldl_cons]
    exact hl ps _ 1 one_pos

theorem foldl_pushUnlessEmpty {acc : Str} (ha : acc ≠ []) (parts : List Str) :
    parts.foldl pushUnlessEmpty acc = join (acc :: parts) := by
  induction parts generalizing acc with
  | nil => simp [join]
  | cons p ps ih =>
    have hp : pushUnlessEmpty acc p = acc ++ ['/'] ++ p := by simp [pushUnlessEmpty, ha]
    rw [List.foldl_cons, hp, ih (by simp)]
    cases ps <;> simp [join, List.intercalate_cons_cons]

theorem prefixSkipping_eq : prefixSkipping parts = join (parts.dropWhile (· = [])) := by
  induction parts with
  | nil => rfl
  | cons p ps ih =>
    by_cases hp : p = []
    · subst hp
      simpa [prefixSkipping, pushUnlessEmpty] using ih
    · have hps : pushUnlessEmpty [] p = p := by simp [pushUnlessEmpty]
      rw [prefixSkipping, List.foldl_cons, hps, foldl_pushUnlessEmpty hp]
      simp [hp]

theorem prefixStrict_eq :
    prefixStrict parts = if [] ∈ parts then .error notCorrectlyFormatted else .ok (join parts) := by
  have hm : ∀ (parts : List Str) (acc : Str),
      parts.foldlM (fun acc p => if p = [] then .error notCorrectlyFormatted else .ok (pushUnlessEmpty acc p)) acc =
        (parts.foldlM pushStrict acc).mapError fun _ => notCorrectlyFormatted := by
    intro parts
    induction parts with
    | nil => intro acc; rfl
    | cons p ps ih =>
      intro acc
      by_cases hp : p = []
      · simp [pushStrict, hp, bind, Except.bind, Except.mapError]
      · have hps : pushStrict acc p = .ok (pushUnlessEmpty acc p) := by
          by_cases ha : acc = [] <;> simp [pushStrict, pushUnlessEmpty, hp, ha]
        simp only [List.foldlM_cons, hp, if_false, hps, bind, Except.bind]
        exact ih _
  rw [prefixStrict, hm, ← buildPrefixStrict, buildPrefixStrict_eq]
  split <;> rfl

theorem leadingPrefix_eq {loop : List Str → Str} (hl : loop [] = []) (parts : List Str) (k : ℕ) :
    leadingPrefix loop parts k =
      if k ≤ parts.length then .ok (loop (parts.take (parts.length - k))) else .error notCorrectlyFormatted := by
  unfold leadingPrefix
  rcases lt_trichotomy parts.length k with h | h | h
  · rw [if_neg (by omega), if_neg (by omega), if_neg (by omega)]
  · rw [if_neg (by omega), if_pos h, if_pos (by omega), h, Nat.sub_self, List.take_zero, hl]
  · rw [if_pos (by omega), if_pos (by omega)]

/-- The loop that builds the prefix. -/
def loopOf : RequestKind → List Str → Str
  | .fileDownload => prefixSkipping
  | _ => prefixByIndex

/-- The same kind, as the reference writes it. -/
def typeOf : RequestKind → RequestType
  | .iiif => .iiif
  | .infoJson => .infoJson
  | .knoraJson => .knoraJson
  | .redirect => .redirect
  | .fileDownload => .fileDownload

theorem imageRequest_eq :
    imageRequest parts =
      if 5 ≤ parts.length then
        .ok ⟨.iiif, [join (parts.take (parts.length - 5)), fromEnd parts 5, fromEnd parts 4, fromEnd parts 3,
          fromEnd parts 2, fromEnd parts 1]⟩
      else .error notCorrectlyFormatted := by
  unfold imageRequest
  rw [leadingPrefix_eq rfl, prefixByIndex_eq]
  split <;> rfl

theorem namedRequest_eq (kind : RequestType) {loop : List Str → Str} (hl : loop [] = []) (parts : List Str) :
    namedRequest kind loop parts =
      if 2 ≤ parts.length then .ok ⟨kind, [loop (parts.take (parts.length - 2)), fromEnd parts 2]⟩
      else .error notCorrectlyFormatted := by
  unfold namedRequest
  rw [leadingPrefix_eq hl]
  split <;> rfl

theorem redirectRequest_eq :
    redirectRequest parts =
      if [] ∈ parts.take (parts.length - 1) then .error notCorrectlyFormatted
      else .ok ⟨.redirect, [join (parts.take (parts.length - 1)), fromEnd parts 1]⟩ := by
  unfold redirectRequest
  rw [prefixStrict_eq]
  by_cases h : 2 ≤ parts.length
  · rw [if_pos h]
    split <;> rfl
  · have hn : parts.take (parts.length - 1) = [] := by
      rw [List.take_eq_nil_iff]
      omega
    rw [if_neg h, hn]
    rfl

theorem parseSegments_eq {parts : List Str} (h : parts ≠ []) :
    parseSegments parts =
      match shape parts with
      | .image => imageRequest parts
      | .named kind => namedRequest (typeOf kind) (loopOf kind) parts
      | .broken =>
        if Iiif.qualformOk parts then .error notCorrectlyFormatted else .error (errorInQuality (fromEnd parts 1))
      | .bare => redirectRequest parts := by
  have hq : qualformOk parts = Iiif.qualformOk parts := by
    simp [qualformOk, Iiif.qualformOk, isValidQualform_eq, h]
  have hr : rotationOk parts = Iiif.rotationOk parts := by rw [rotationOk, isValidRotation_eq, Iiif.rotationOk]
  have hs : sizeOk parts = Iiif.sizeOk parts := by rw [sizeOk, isValidSize_eq, Iiif.sizeOk]
  have hg : regionOk parts = Iiif.regionOk parts := by rw [regionOk, isValidRegion_eq, Iiif.regionOk]
  unfold parseSegments
  rw [if_neg h, hq, hr, hs, hg]
  exact tests_eq_shape parts (imageRequest parts) (fun kind => namedRequest (typeOf kind) (loopOf kind) parts)
    (.error notCorrectlyFormatted) (.error (errorInQuality (fromEnd parts 1))) (redirectRequest parts)

end Sipi.Iiif.Cpp
