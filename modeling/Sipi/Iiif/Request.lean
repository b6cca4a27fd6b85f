import Sipi.Iiif.Decode
import Sipi.Iiif.Params
import Mathlib.Data.List.GetD

/-!
# The Rust classifier

`parse_request` of `src/iiifparser/rust/request.rs`: what kind of request a path is, by its last segments.
-/

namespace Sipi.Iiif

/-- `RequestKind`. -/
inductive RequestKind where
  | iiif
  | infoJson
  | knoraJson
  | redirect
  | fileDownload
  deriving DecidableEq, Repr

/-- `ParsedRequest`. -/
structure ParsedRequest where
  kind : RequestKind
  iiifPrefix : Str
  identifier : Str
  params : Option IiifParams
  deriving DecidableEq, Repr

/-- `ParseError`, by where it is raised. -/
inductive ParseError where
  | noPath
  | malformed
  | quality (last : Str)
  | params (e : ParamError)
  deriving DecidableEq, Repr

/-- The text of a parse error. -/
def ParseError.message : ParseError → Str
  | .noPath => txt "No parameters/path given"
  | .malformed => txt "IIIF url not correctly formatted"
  | .quality last => txt "IIIF url not correctly formatted: Error in quality: \"" ++ last ++ txt "\"!"
  | .params e => e.message

/-- `parts.join("/")`. -/
def join (parts : List Str) : Str := ['/'].intercalate parts

/-- The `k`-th segment from the end. -/
def fromEnd (parts : List Str) (k : ℕ) : Str := parts.getD (parts.length - k) []

/-- All but the last `k` segments. -/
def leadingPrefix (parts : List Str) (k : ℕ) : Except ParseError Str :=
  if k + 1 ≤ parts.length then .ok (join (parts.take (parts.length - k)))
  else if parts.length = k then .ok []
  else .error .malformed

/-- One turn of the loop of `build_prefix_strict`. -/
def pushStrict (acc p : Str) : Except ParseError Str :=
  if p = [] then .error .malformed else .ok ((if acc = [] then acc else acc ++ ['/']) ++ p)

/-- `build_prefix_strict`. -/
def buildPrefixStrict (parts : List Str) : Except ParseError Str := parts.foldlM pushStrict []

/-- A request other than an image. -/
def namedRequest (kind : RequestKind) (parts : List Str) : Except ParseError ParsedRequest := do
  let iiifPrefix ← leadingPrefix parts 2
  return ⟨kind, iiifPrefix, fromEnd parts 2, none⟩

/-- The image request. -/
def imageRequest (parts : List Str) : Except ParseError ParsedRequest := do
  let iiifPrefix ← leadingPrefix parts 5
  let params ← (parseIiifParams (fromEnd parts 4) (fromEnd parts 3) (fromEnd parts 2) (fromEnd parts 1)).mapError .params
  return ⟨.iiif, iiifPrefix, fromEnd parts 5, some params⟩

/-- The redirect of a bare identifier. -/
def redirectRequest (parts : List Str) : Except ParseError ParsedRequest := do
  let iiifPrefix ← buildPrefixStrict (parts.take (parts.length - 1))
  return ⟨.redirect, iiifPrefix, fromEnd parts 1, none⟩

/-- The quality and format segment is good. -/
def qualformOk (parts : List Str) : Bool := isValidQualform (fromEnd parts 1)

/-- There is a rotation segment, and it is good. -/
def rotationOk (parts : List Str) : Bool :=
  decide (1 < parts.length) && isValidRotation (fromEnd parts 2)

/-- There is a size segment, and it is good. -/
def sizeOk (parts : List Str) : Bool := decide (2 < parts.length) && isValidSize (fromEnd parts 3)

/-- There is a region segment, and it is good. -/
def regionOk (parts : List Str) : Bool :=
  decide (3 < parts.length) && isValidRegion (fromEnd parts 4)

/-- `parse_request` on the decoded segments. -/
def parseSegments (parts : List Str) : Except ParseError ParsedRequest :=
  if parts = [] then .error .noPath
  else
    let last := fromEnd parts 1
    if '.' ∈ last then
      let body := last.takeWhile (· ≠ '.')
      let ext := (last.dropWhile (· ≠ '.')).tail
      if qualformOk parts && rotationOk parts && sizeOk parts && regionOk parts then imageRequest parts
      else if body = txt "info" ∧ ext = txt "json" then namedRequest .infoJson parts
      else if body = txt "knora" ∧ ext = txt "json" then namedRequest .knoraJson parts
      else if qualformOk parts then .error .malformed
      else if rotationOk parts && sizeOk parts && regionOk parts then .error (.quality last)
      else redirectRequest parts
    else if last = txt "file" then namedRequest .fileDownload parts
    else if rotationOk parts && sizeOk parts && regionOk parts then .error (.quality last)
    else redirectRequest parts

/-- `parse_request`. -/
def parseRequest (uri : Str) : Except ParseError ParsedRequest := parseSegments (tokenize uri)

/-- What the last segments make of a path. -/
inductive Shape where
  | image
  | named (kind : RequestKind)
  | broken
  | bare
  deriving DecidableEq, Repr

/-- The names that the last segment can have. -/
def nameOf (last : Str) : Option RequestKind :=
  if last = txt "info.json" then some .infoJson
  else if last = txt "knora.json" then some .knoraJson
  else if last = txt "file" then some .fileDownload
  else none

/-- The shape of a path. -/
def shape (parts : List Str) : Shape :=
  if qualformOk parts && rotationOk parts && sizeOk parts && regionOk parts then .image
  else
    match nameOf (fromEnd parts 1) with
    | some kind => .named kind
    | none => if qualformOk parts || (rotationOk parts && sizeOk parts && regionOk parts) then .broken else .bare

theorem decide_ne_of_not_mem {a : Str} {d : Char} (ha : d ∉ a) : ∀ c ∈ a, decide (c ≠ d) = true :=
  fun _ hc => decide_eq_true (ne_of_mem_of_not_mem hc ha)

theorem split_at_dot_iff {s w v : Str} (hw : '.' ∉ w) :
    ('.' ∈ s ∧ s.takeWhile (· ≠ '.') = w ∧ (s.dropWhile (· ≠ '.')).tail = v) ↔ s = w ++ '.' :: v := by
  constructor
  · rintro ⟨hs, rfl, rfl⟩
    obtain ⟨a, b, rfl, ha⟩ := List.eq_append_cons_of_mem hs
    rw [List.takeWhile_append_of_pos (decide_ne_of_not_mem ha), List.dropWhile_append_of_pos (decide_ne_of_not_mem ha)]
    simp
  · rintro rfl
    rw [List.takeWhile_append_of_pos (decide_ne_of_not_mem hw), List.dropWhile_append_of_pos (decide_ne_of_not_mem hw)]
    simp

theorem dot_mem_of_isValidQualform {s : Str} (h : isValidQualform s = true) : '.' ∈ s := by
  obtain ⟨q, -, r, ⟨_, rfl, f, -, rfl⟩, rfl⟩ := (isValidQualform_iff s).mp h
  exact List.mem_append_right q (List.mem_cons_self ..)

variable (parts : List Str)

theorem tests_eq_shape {α : Type*} (image : α) (named : RequestKind → α) (badRest badQuality bare : α) :
    (if '.' ∈ fromEnd parts 1 then
      if qualformOk parts && rotationOk parts && sizeOk parts && regionOk parts then image
      else if (fromEnd parts 1).takeWhile (· ≠ '.') = txt "info" ∧
          ((fromEnd parts 1).dropWhile (· ≠ '.')).tail = txt "json" then named .infoJson
      else if (fromEnd parts 1).takeWhile (· ≠ '.') = txt "knora" ∧
          ((fromEnd parts 1).dropWhile (· ≠ '.')).tail = txt "json" then named .knoraJson
      else if qualformOk parts then badRest
      else if rotationOk parts && sizeOk parts && regionOk parts then badQuality
      else bare
    else if fromEnd parts 1 = txt "file" then named .fileDownload
    else if rotationOk parts && sizeOk parts && regionOk parts then badQuality
    else bare) =
      match shape parts with
      | .image => image
      | .named kind => named kind
      | .broken => if qualformOk parts then badRest else badQuality
      | .bare => bare := by
  have hdt : qualformOk parts = true → '.' ∈ fromEnd parts 1 := dot_mem_of_isValidQualform
  have hin := @split_at_dot_iff (fromEnd parts 1) (txt "info") (txt "json") (by decide)
  have hkn := @split_at_dot_iff (fromEnd parts 1) (txt "knora") (txt "json") (by decide)
  have hi : txt "info" ++ '.' :: txt "json" = txt "info.json" := by decide
  have hk : txt "knora" ++ '.' :: txt "json" = txt "knora.json" := by decide
  rw [hi] at hin
  rw [hk] at hkn
  unfold shape nameOf
  generalize fromEnd parts 1 = last at *
  by_cases hd : '.' ∈ last
  · have hf : last ≠ txt "file" := by
      rintro rfl
      exact absurd hd (by decide)
    simp only [hd, true_and] at hin hkn
    simp only [hd, if_true, hin, hkn, hf, if_false]
    cases qualformOk parts <;> cases rotationOk parts <;> cases sizeOk parts <;> cases regionOk parts <;>
      simp <;> split_ifs <;> rfl
  · have hq : qualformOk parts = false := by simpa using fun h => hd (hdt h)
    have hni : last ≠ txt "info.json" := fun h => hd (hin.mpr h).1
    have hnk : last ≠ txt "knora.json" := fun h => hd (hkn.mpr h).1
    simp only [hd, if_false, hq, hni, hnk]
    cases rotationOk parts <;> cases sizeOk parts <;> cases regionOk parts <;> simp <;> split_ifs <;> rfl

theorem parseSegments_eq {parts : List Str} (h : parts ≠ []) :
    parseSegments parts =
      match shape parts with
      | .image => imageRequest parts
      | .named kind => namedRequest kind parts
      | .broken => if qualformOk parts then .error .malformed else .error (.quality (fromEnd parts 1))
      | .bare => redirectRequest parts := by
  unfold parseSegments
  rw [if_neg h]
  exact tests_eq_shape parts (imageRequest parts) (fun kind => namedRequest kind parts) (.error .malformed)
    (.error (.quality (fromEnd parts 1))) (redirectRequest parts)

theorem fromEnd_append (pre : List Str) {suf : List Str} {k : ℕ} (hk : k ≤ suf.length) :
    fromEnd (pre ++ suf) k = fromEnd suf k := by
  unfold fromEnd
  rw [List.length_append, List.getD_append_right _ _ _ _ (by omega)]
  congr 1
  omega

theorem drop_eq_fromEnd_cons {parts : List Str} {k : ℕ} (hk : k < parts.length) :
    parts.drop (parts.length - (k + 1)) = fromEnd parts (k + 1) :: parts.drop (parts.length - k) := by
  have hlt : parts.length - (k + 1) < parts.length := by omega
  rw [List.drop_eq_getElem_cons hlt, fromEnd, List.getD_eq_getElem _ _ hlt]
  congr 2
  omega

theorem eq_take_append_four {parts : List Str} (h : 3 < parts.length) :
    parts = parts.take (parts.length - 4) ++ [fromEnd parts 4, fromEnd parts 3, fromEnd parts 2, fromEnd parts 1] := by
  have hd : parts.drop (parts.length - 4) =
      [fromEnd parts 4, fromEnd parts 3, fromEnd parts 2, fromEnd parts 1] := by
    rw [drop_eq_fromEnd_cons h, drop_eq_fromEnd_cons (by omega), drop_eq_fromEnd_cons (by omega),
      drop_eq_fromEnd_cons (by omega), Nat.sub_zero, List.drop_length]
  rw [← hd, List.take_append_drop]

theorem eq_take_append_last {parts : List Str} (h : parts ≠ []) :
    parts = parts.take (parts.length - 1) ++ [fromEnd parts 1] := by
  have hd : parts.drop (parts.length - 1) = [fromEnd parts 1] := by
    rw [drop_eq_fromEnd_cons (List.length_pos_iff.mpr h), Nat.sub_zero, List.drop_length]
  rw [← hd, List.take_append_drop]

theorem qualformOk_iff : qualformOk parts = true ↔ Grammar.HasQualityFormat parts := by
  unfold qualformOk
  rw [isValidQualform_iff]
  constructor
  · intro h
    have hne : parts ≠ [] := by
      rintro rfl
      exact absurd ((isValidQualform_iff _).mpr h) (by decide)
    exact ⟨_, _, eq_take_append_last hne, h⟩
  · rintro ⟨pre, qf, rfl, h⟩
    rwa [fromEnd_append pre (by simp)]

theorem geometryOk_iff :
    (rotationOk parts && sizeOk parts && regionOk parts) = true ↔ Grammar.HasGeometry parts := by
  simp only [rotationOk, sizeOk, regionOk, Bool.and_eq_true, decide_eq_true_eq, isValidRotation_iff, isValidSize_iff,
    isValidRegion_iff]
  constructor
  · rintro ⟨⟨⟨-, hrt⟩, -, hsz⟩, hl, hr⟩
    exact ⟨_, _, _, _, _, eq_take_append_four hl, hr, hsz, hrt⟩
  · rintro ⟨pre, reg, sz, rot, last, rfl, hr, hsz, hrt⟩
    rw [fromEnd_append pre (by simp), fromEnd_append pre (by simp), fromEnd_append pre (by simp)]
    simp only [List.length_append, List.length_cons, List.length_nil]
    exact ⟨⟨⟨by omega, hrt⟩, by omega, hsz⟩, by omega, hr⟩

theorem isImageRequest_iff :
    Grammar.IsImageRequest parts ↔
      5 ≤ parts.length ∧ Grammar.HasQualityFormat parts ∧ Grammar.HasGeometry parts := by
  constructor
  · rintro ⟨pre, identifier, reg, sz, rot, qf, rfl, hr, hsz, hrt, hqf⟩
    refine ⟨by simp, ⟨pre ++ [identifier, reg, sz, rot], qf, by simp, hqf⟩,
      ⟨pre ++ [identifier], reg, sz, rot, qf, by simp, hr, hsz, hrt⟩⟩
  · rintro ⟨hl, ⟨pre', qf, hp', hqf⟩, pre, reg, sz, rot, last, rfl, hr, hsz, hrt⟩
    have hp : pre ≠ [] := by
      rintro rfl
      simp at hl
    obtain rfl : last = qf := by
      have := congrArg List.getLast? hp'
      simpa using this
    refine ⟨pre.take (pre.length - 1), fromEnd pre 1, reg, sz, rot, last, ?_, hr, hsz, hrt, hqf⟩
    conv_lhs => rw [eq_take_append_last hp]
    simp

theorem leadingPrefix_eq (k : ℕ) :
    leadingPrefix parts k =
      if k ≤ parts.length then .ok (join (parts.take (parts.length - k))) else .error .malformed := by
  unfold leadingPrefix
  rcases lt_trichotomy parts.length k with h | h | h
  · rw [if_neg (by omega), if_neg (by omega), if_neg (by omega)]
  · rw [if_neg (by omega), if_pos h, if_pos (by omega), h, Nat.sub_self]
    rfl
  · rw [if_pos (by omega), if_pos (by omega)]

theorem imageRequest_eq :
    imageRequest parts =
      if 5 ≤ parts.length then
        match parseIiifParams (fromEnd parts 4) (fromEnd parts 3) (fromEnd parts 2) (fromEnd parts 1) with
        | .ok p => .ok ⟨.iiif, join (parts.take (parts.length - 5)), fromEnd parts 5, some p⟩
        | .error e => .error (.params e)
      else .error .malformed := by
  unfold imageRequest
  rw [leadingPrefix_eq]
  split
  · cases parseIiifParams (fromEnd parts 4) (fromEnd parts 3) (fromEnd parts 2) (fromEnd parts 1) <;> rfl
  · rfl

theorem namedRequest_eq (kind : RequestKind) (parts : List Str) :
    namedRequest kind parts =
      if 2 ≤ parts.length then .ok ⟨kind, join (parts.take (parts.length - 2)), fromEnd parts 2, none⟩
      else .error .malformed := by
  unfold namedRequest
  rw [leadingPrefix_eq]
  split <;> rfl

theorem foldlM_pushStrict {acc : Str} (ha : acc ≠ []) (parts : List Str) :
    parts.foldlM pushStrict acc = if [] ∈ parts then .error .malformed else .ok (join (acc :: parts)) := by
  induction parts generalizing acc with
  | nil => simp [join, pure, Except.pure]
  | cons p ps ih =>
    by_cases hp : p = []
    · simp [pushStrict, hp, bind, Except.bind]
    · have ha' : (acc ++ ['/']) ++ p ≠ [] := by simp
      have hj : join ((acc ++ ['/'] ++ p) :: ps) = join (acc :: p :: ps) := by
        cases ps <;> simp [join, List.intercalate_cons_cons]
      simp only [List.foldlM_cons, pushStrict, hp, if_false, ha, bind, Except.bind, ih ha', hj, List.mem_cons,
        Ne.symm hp, false_or]

theorem buildPrefixStrict_eq :
    buildPrefixStrict parts = if [] ∈ parts then .error .malformed else .ok (join parts) := by
  cases parts with
  | nil => rfl
  | cons p ps =>
    by_cases hp : p = []
    · simp [buildPrefixStrict, pushStrict, hp, bind, Except.bind]
    · have hs : pushStrict [] p = .ok p := by simp [pushStrict, hp]
      simp only [buildPrefixStrict, List.foldlM_cons, hs, bind, Except.bind, foldlM_pushStrict hp, List.mem_cons,
        Ne.symm hp, false_or]

theorem redirectRequest_eq :
    redirectRequest parts =
      if [] ∈ parts.take (parts.length - 1) then .error .malformed
      else .ok ⟨.redirect, join (parts.take (parts.length - 1)), fromEnd parts 1, none⟩ := by
  unfold redirectRequest
  rw [buildPrefixStrict_eq]
  split <;> rfl

/-! ### The image grammar -/

theorem nameOf_ne_iiif (s : Str) : nameOf s ≠ some .iiif := by
  unfold nameOf
  split_ifs <;> decide

theorem nameOf_eq_none {s : Str} :
    nameOf s = none ↔ s ≠ txt "info.json" ∧ s ≠ txt "knora.json" ∧ s ≠ txt "file" := by
  unfold nameOf
  split_ifs <;> simp_all

/-- An image, or one with bad parameters only. -/
def IsImageVerdict (r : Except ParseError ParsedRequest) : Prop :=
  (∃ p, r = .ok p ∧ p.kind = .iiif) ∨ ∃ e, r = .error (.params e)

theorem isImageVerdict_imageRequest : IsImageVerdict (imageRequest parts) ↔ 5 ≤ parts.length := by
  rw [imageRequest_eq]
  split
  · cases parseIiifParams (fromEnd parts 4) (fromEnd parts 3) (fromEnd parts 2) (fromEnd parts 1) <;>
      simp_all [IsImageVerdict]
  · simp_all [IsImageVerdict]

theorem not_isImageVerdict_namedRequest {kind : RequestKind} (h : kind ≠ .iiif) (parts : List Str) :
    ¬ IsImageVerdict (namedRequest kind parts) := by
  rw [namedRequest_eq]
  split <;> simp [IsImageVerdict, h]

theorem not_isImageVerdict_redirectRequest : ¬ IsImageVerdict (redirectRequest parts) := by
  rw [redirectRequest_eq]
  split <;> simp [IsImageVerdict]

theorem shape_eq_image_iff : shape parts = .image ↔ Grammar.HasQualityFormat parts ∧ Grammar.HasGeometry parts := by
  rw [← qualformOk_iff, ← geometryOk_iff]
  unfold shape
  cases qualformOk parts <;> cases rotationOk parts <;> cases sizeOk parts <;> cases regionOk parts <;>
    cases nameOf (fromEnd parts 1) <;> simp

theorem isImageVerdict_parseSegments :
    IsImageVerdict (parseSegments parts) ↔ shape parts = .image ∧ 5 ≤ parts.length := by
  by_cases hne : parts = []
  · subst hne
    simp [parseSegments, IsImageVerdict]
  rw [parseSegments_eq hne]
  cases hs : shape parts with
  | image => simp [isImageVerdict_imageRequest]
  | named kind =>
    have hk : kind ≠ .iiif := by
      rintro rfl
      unfold shape at hs
      split at hs
      · cases hs
      · split at hs
        · next h => exact nameOf_ne_iiif _ (by rw [h]; simpa using hs)
        · split at hs <;> cases hs
    simp [not_isImageVerdict_namedRequest hk]
  | broken => by_cases hq : qualformOk parts = true <;> simp [hq, IsImageVerdict]
  | bare => simp [not_isImageVerdict_redirectRequest]

/-- **The image requests are those of the grammar**, and a path that has a good tail or
good geometry without being one is refused, unless its last segment is one of the
three names. -/
theorem parseSegments_image_iff (parts : List Str) :
    (IsImageVerdict (parseSegments parts) ↔ Grammar.IsImageRequest parts) ∧
    ((Grammar.HasQualityFormat parts ∨ Grammar.HasGeometry parts) → ¬ Grammar.IsImageRequest parts →
      fromEnd parts 1 ∉ [txt "info.json", txt "knora.json", txt "file"] → ∃ e, parseSegments parts = .error e) := by
  constructor
  · rw [isImageVerdict_parseSegments, shape_eq_image_iff, isImageRequest_iff]
    tauto
  · intro hl him hn
    have hne : parts ≠ [] := by
      rintro rfl
      rcases hl with ⟨_, _, h, -⟩ | ⟨_, _, _, _, _, h, -⟩ <;> simp at h
    have hnn : nameOf (fromEnd parts 1) = none := nameOf_eq_none.mpr (by simpa using hn)
    rw [parseSegments_eq hne]
    by_cases hi : shape parts = .image
    · -- all four segments are good, so the identifier is missing
      have hln : ¬ 5 ≤ parts.length := fun h =>
        him ((isImageRequest_iff parts).mpr ⟨h, (shape_eq_image_iff parts).mp hi⟩)
      simp only [hi, imageRequest_eq, if_neg hln]
      exact ⟨_, rfl⟩
    · have hb : shape parts = .broken := by
        rw [← qualformOk_iff, ← geometryOk_iff] at hl
        unfold shape at hi ⊢
        split at hi
        · exact absurd rfl hi
        · rw [if_neg ‹_›]
          simp only [hnn]
          rw [if_pos (Bool.or_eq_true_iff.mpr hl)]
      simp only [hb]
      split <;> exact ⟨_, rfl⟩

theorem parseSegments_refuses_bare_format :
    ∃ e, parseSegments [txt "unit", txt "lena512.jp2", txt "full", txt "max", txt "0", txt "jpg"] = .error e := by
  refine (parseSegments_image_iff _).2 (Or.inr ?_) ?_ (by decide)
  · exact (geometryOk_iff _).mp (by decide)
  · rw [isImageRequest_iff, ← qualformOk_iff]
    rintro ⟨-, h, -⟩
    exact absurd h (by decide)

end Sipi.Iiif
