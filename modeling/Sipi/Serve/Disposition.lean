import Sipi.Theory.HeaderFields
import Sipi.Serve.Within
import Mathlib.Data.Bool.AllAny

/-!
# The name of a download

For a `/file` request the shell names the file in a `Content-Disposition` header: `content_disposition` of
`server-rs/src/routes.rs`.
-/

namespace Sipi.Serve

open Sipi.Iiif Sipi.Theory

/-- The bytes of a text of the source. -/
def wordBytes (w : String) : List UInt8 := asBytes (txt w)

/-- The bytes that are left out: controls and DEL. -/
def isControl (b : UInt8) : Bool := b < 0x20 || b = 0x7F

/-- The loop that escapes quotes and backslashes. -/
def quoted (safe : List UInt8) : List UInt8 :=
  safe.foldl (fun quoted b =>
    (if b = 0x22 ∨ b = 0x5C then quoted ++ [0x5C] else quoted) ++ [b]) []

/-- The unreserved bytes. -/
def unreserved (b : UInt8) : Bool :=
  (0x30 ≤ b && b ≤ 0x39) || (0x41 ≤ b && b ≤ 0x5A) || (0x61 ≤ b && b ≤ 0x7A) || b = 0x2D || b = 0x2E ||
    b = 0x5F || b = 0x7E

/-- The loop that encodes reserved bytes. -/
def encoded (safe : List UInt8) : List UInt8 :=
  safe.foldl (fun enc b =>
    if unreserved b then enc ++ [b]
    else enc ++ [0x25, HeaderField.hexUpper (b.toNat / 16), HeaderField.hexUpper (b.toNat % 16)]) []

/-- `HeaderValue::from_str`: visible ASCII and tabs. -/
def headerValue (value : List UInt8) : Option (List UInt8) :=
  if value.all fun b => (0x20 ≤ b && b < 0x7F) || b = 0x09 then some value else none

/-- The identifier without its control bytes. -/
def withoutControls (identifier : Str) : List UInt8 := (asBytes identifier).filter fun b => !isControl b

/-- `content_disposition`. -/
def contentDisposition (identifier : Str) : Option (List UInt8) :=
  let safe := (asBytes identifier).filter fun b => 0x20 ≤ b && b ≠ 0x7F
  headerValue (if safe.all (· < 0x7F) then wordBytes "inline; filename=\"" ++ quoted safe ++ wordBytes "\""
    else wordBytes "inline; filename*=UTF-8''" ++ encoded safe)

theorem quoted_eq (safe : List UInt8) : quoted safe = HeaderField.escape safe := by
  rw [quoted, HeaderField.escape, List.flatMap_eq_foldl]
  congr 1
  funext done b
  split <;> simp_all [HeaderField.quote, HeaderField.backslash]

theorem encoded_eq (safe : List UInt8) : encoded safe = HeaderField.percentEncode unreserved safe := by
  rw [encoded, HeaderField.percentEncode, List.flatMap_eq_foldl]
  congr 1
  funext done b
  split_ifs <;> rfl

theorem filter_eq_withoutControls (identifier : Str) :
    ((asBytes identifier).filter fun b => 0x20 ≤ b && b ≠ 0x7F) = withoutControls identifier := by
  refine List.filter_congr fun b _ => ?_
  have hl : decide (0x20 ≤ b) = !decide (b < 0x20) := by rw [← decide_not, decide_eq_decide, UInt8.not_lt]
  simp [isControl, hl]

/-! ### The header -/

/-- **The header names the file.** -/
def NamesFile (name value : List UInt8) : Prop :=
  ∃ v, (HeaderField.parse value = (wordBytes "inline", [(wordBytes "filename", v)]) ∧
      HeaderField.unquote v = some name) ∨
    HeaderField.parse value = (wordBytes "inline", [(wordBytes "filename*", v)]) ∧
      HeaderField.extended v = some (wordBytes "UTF-8", name)

theorem wordBytes_quote : wordBytes "\"" = [HeaderField.quote] := by decide

theorem parse_inline {start v : List UInt8} (hs : ∀ b ∈ start, b ≠ HeaderField.semicolon ∧ b ≠ HeaderField.quote)
    (hv : HeaderField.cut .outside v = (v, [])) :
    HeaderField.parse (wordBytes "inline" ++ HeaderField.semicolon :: (start ++ v)) =
      (wordBytes "inline", [HeaderField.parameter (start ++ v)]) := by
  rw [HeaderField.parse, HeaderField.cut_plain (List.all_iff_forall_prop.mp rfl), HeaderField.cut_semicolon,
    HeaderField.cut_plain hs, hv]
  simp

theorem parameter_filename (v : List UInt8) :
    HeaderField.parameter (wordBytes " filename=" ++ v) = (wordBytes "filename", v) := rfl

theorem parameter_filename_star (v : List UInt8) :
    HeaderField.parameter (wordBytes " filename*=" ++ v) = (wordBytes "filename*", v) := rfl

theorem headerValue_of_visible {value : List UInt8} (h : ∀ b ∈ value, 0x20 ≤ b ∧ b < 0x7F) :
    headerValue value = some value := by
  refine if_pos (List.all_eq_true.mpr fun b hb => ?_)
  simp [h b hb]

theorem mem_withoutControls {identifier : Str} {b : UInt8} (hb : b ∈ withoutControls identifier) : 0x20 ≤ b := by
  have hc := (List.mem_filter.mp hb).2
  simp only [isControl, Bool.not_or, Bool.and_eq_true, Bool.not_eq_true', decide_eq_false_iff_not, UInt8.not_lt]
    at hc
  exact hc.1

theorem visible_inline {name v : List UInt8} (hn : ∀ b ∈ name, 0x20 ≤ b ∧ b < 0x7F)
    (hv : ∀ b ∈ v, 0x20 ≤ b ∧ b < 0x7F) :
    ∀ b ∈ wordBytes "inline" ++ HeaderField.semicolon :: (name ++ v), 0x20 ≤ b ∧ b < 0x7F := by
  have hw : ∀ b ∈ wordBytes "inline", 0x20 ≤ b ∧ b < 0x7F := List.all_iff_forall_prop.mp rfl
  intro b hb
  simp only [List.mem_append, List.mem_cons] at hb
  rcases hb with hb | rfl | hb | hb
  · exact hw b hb
  · decide
  · exact hn b hb
  · exact hv b hb

theorem contentDisposition_ascii {identifier : Str} (h : ∀ b ∈ withoutControls identifier, b < 0x7F) :
    ∃ value, contentDisposition identifier = some value ∧ (∀ b ∈ value, 0x20 ≤ b ∧ b < 0x7F) ∧
      NamesFile (withoutControls identifier) value := by
  set safe := withoutControls identifier with hsf
  set value := wordBytes "inline" ++ HeaderField.semicolon ::
    (wordBytes " filename=" ++ (HeaderField.quote :: HeaderField.escape safe ++ [HeaderField.quote])) with hv
  have ha : safe.all (· < 0x7F) = true := List.all_eq_true.mpr fun b hb => by simp [h b hb]
  have he : ∀ b ∈ HeaderField.escape safe, 0x20 ≤ b ∧ b < 0x7F := by
    intro b hb
    obtain ⟨c, hc, hbc⟩ := List.mem_flatMap.mp hb
    have hcv : 0x20 ≤ c ∧ c < 0x7F := ⟨mem_withoutControls hc, h c hc⟩
    split_ifs at hbc <;> simp only [List.mem_cons, List.not_mem_nil, or_false] at hbc
    · rcases hbc with rfl | rfl
      · decide
      · exact hcv
    · rwa [hbc]
  have hvs : ∀ b ∈ value, 0x20 ≤ b ∧ b < 0x7F := by
    refine visible_inline (List.all_iff_forall_prop.mp rfl) fun b hb => ?_
    simp only [List.cons_append, List.mem_append, List.mem_cons, List.not_mem_nil, or_false] at hb
    rcases hb with rfl | hb | rfl
    · decide
    · exact he b hb
    · decide
  refine ⟨value, ?_, hvs, _, Or.inl ⟨?_, HeaderField.unquote_escape safe⟩⟩
  · rw [contentDisposition, filter_eq_withoutControls, ← hsf, if_pos ha, quoted_eq, wordBytes_quote,
      ← headerValue_of_visible hvs]
    simp only [hv, List.append_assoc]
    rfl
  · rw [hv, parse_inline (List.all_iff_forall_prop.mp rfl) (HeaderField.cut_quoted safe), parameter_filename]

theorem extended_utf8 (t : List UInt8) :
    HeaderField.extended (wordBytes "UTF-8''" ++ t) =
      (HeaderField.percentDecode t).map fun bytes => (wordBytes "UTF-8", bytes) := rfl

/-- Visible bytes without a meaning. -/
def Harmless (b : UInt8) : Prop := (0x20 ≤ b ∧ b < 0x7F) ∧ b ≠ HeaderField.semicolon ∧ b ≠ HeaderField.quote

instance (b : UInt8) : Decidable (Harmless b) := inferInstanceAs (Decidable (_ ∧ _))

theorem harmless_of_unreserved {b : UInt8} (h : unreserved b = true) : Harmless b := by
  simp only [unreserved, Bool.or_eq_true, Bool.and_eq_true, decide_eq_true_eq, UInt8.le_iff_toNat_le,
    ← UInt8.toNat_inj] at h
  simp only [Harmless, HeaderField.semicolon, HeaderField.quote, UInt8.le_iff_toNat_le, UInt8.lt_iff_toNat_lt, ne_eq,
    ← UInt8.toNat_inj]
  simp only [UInt8.reduceToNat] at h ⊢
  omega

theorem harmless_hexUpper : ∀ n < 16, Harmless (HeaderField.hexUpper n) := by decide

theorem harmless_of_mem_encode {safe : List UInt8} {b : UInt8} (hb : b ∈ HeaderField.percentEncode unreserved safe) :
    Harmless b := by
  obtain ⟨c, -, hbc⟩ := List.mem_flatMap.mp hb
  have hlt := c.toNat_lt
  split_ifs at hbc with hk <;> simp only [List.mem_cons, List.not_mem_nil, or_false] at hbc
  · rw [hbc]
    exact harmless_of_unreserved hk
  · rcases hbc with rfl | rfl | rfl
    · decide
    · exact harmless_hexUpper _ (by omega)
    · exact harmless_hexUpper _ (by omega)

theorem contentDisposition_other {identifier : Str} (h : ¬ ∀ b ∈ withoutControls identifier, b < 0x7F) :
    ∃ value, contentDisposition identifier = some value ∧ (∀ b ∈ value, 0x20 ≤ b ∧ b < 0x7F) ∧
      NamesFile (withoutControls identifier) value := by
  set safe := withoutControls identifier with hs
  set v := wordBytes "UTF-8''" ++ HeaderField.percentEncode unreserved safe with hv
  set value := wordBytes "inline" ++ HeaderField.semicolon :: (wordBytes " filename*=" ++ v) with hvl
  have hsm : ¬ safe.all (· < 0x7F) = true := by
    simpa [List.all_eq_true] using h
  have hh : ∀ b ∈ v, Harmless b := by
    have hst : ∀ b ∈ wordBytes "UTF-8''", Harmless b := List.all_iff_forall_prop.mp rfl
    intro b hb
    rcases List.mem_append.mp hb with hb | hb
    · exact hst b hb
    · exact harmless_of_mem_encode hb
  have hvs : ∀ b ∈ value, 0x20 ≤ b ∧ b < 0x7F :=
    visible_inline (List.all_iff_forall_prop.mp rfl) fun b hb => (hh b hb).1
  have hc : HeaderField.cut .outside v = (v, []) := by
    have hp := HeaderField.cut_plain (fun b hb => (hh b hb).2) []
    rwa [List.append_nil, HeaderField.cut, List.append_nil] at hp
  refine ⟨value, ?_, hvs, v, Or.inr ⟨?_, ?_⟩⟩
  · rw [contentDisposition, filter_eq_withoutControls, ← hs, if_neg hsm, encoded_eq,
      ← headerValue_of_visible hvs]
    rfl
  · rw [hvl, parse_inline (List.all_iff_forall_prop.mp rfl) hc, parameter_filename_star]
  · rw [hv, extended_utf8, HeaderField.percentDecode_encode (by decide)]
    rfl

/-- **Whatever the identifier is, the header names it**: there is a header, without control bytes, with one parameter,
and that is the identifier without its control bytes. -/
theorem namesFile_of_identifier (identifier : Str) :
    ∃ value, contentDisposition identifier = some value ∧ (∀ b ∈ value, ¬ b < 0x20 ∧ b ≠ 0x7F) ∧
      NamesFile (withoutControls identifier) value := by
  have hf : ∃ value, contentDisposition identifier = some value ∧ (∀ b ∈ value, 0x20 ≤ b ∧ b < 0x7F) ∧
      NamesFile (withoutControls identifier) value := by
    by_cases h : ∀ b ∈ withoutControls identifier, b < 0x7F
    · exact contentDisposition_ascii h
    · exact contentDisposition_other h
  obtain ⟨value, hvl, hv, hn⟩ := hf
  refine ⟨value, hvl, fun b hb => ⟨UInt8.not_lt.mpr (hv b hb).1, ?_⟩, hn⟩
  exact fun heq => UInt8.lt_irrefl _ (heq ▸ (hv b hb).2)

example : contentDisposition (txt "a\"b\n.tif") = some (wordBytes "inline; filename=\"a\\\"b.tif\"") := by decide

end Sipi.Serve
