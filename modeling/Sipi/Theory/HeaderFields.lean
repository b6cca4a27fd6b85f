import Mathlib.Data.List.Basic

/-!
# Values of header fields

The value of a header field is a word with parameters: `word; name=value; name="value"`.
-/

namespace Sipi.Theory

namespace HeaderField

/-- A quote. -/
def quote : UInt8 := 0x22

/-- A backslash. -/
def backslash : UInt8 := 0x5C

/-- A semicolon. -/
def semicolon : UInt8 := 0x3B

/-- An equals sign. -/
def equals : UInt8 := 0x3D

/-- A blank. -/
def blank : UInt8 := 0x20

/-- A percent sign. -/
def percent : UInt8 := 0x25

/-- An apostrophe. -/
def apostrophe : UInt8 := 0x27

/-- Where a reader is. -/
inductive Place where
  | outside
  | inside
  | escaped
  deriving DecidableEq

/-- Where it is after a byte. -/
def Place.next (b : UInt8) : Place → Place
  | .outside => if b = quote then .inside else .outside
  | .inside => if b = backslash then .escaped else if b = quote then .outside else .inside
  | .escaped => .inside

/-- Cut at semicolons that are not in quotes. -/
def cut : Place → List UInt8 → List UInt8 × List (List UInt8)
  | _, [] => ([], [])
  | p, b :: t =>
    if p = .outside ∧ b = semicolon then ([], (cut .outside t).1 :: (cut .outside t).2)
    else (b :: (cut (p.next b) t).1, (cut (p.next b) t).2)

/-- A name and its value. -/
def parameter (part : List UInt8) : List UInt8 × List UInt8 :=
  let rest := part.dropWhile (· == blank)
  (rest.takeWhile (· != equals), (rest.dropWhile (· != equals)).drop 1)

/-- **A value**: its word and its parameters. -/
def parse (value : List UInt8) : List UInt8 × List (List UInt8 × List UInt8) :=
  ((cut .outside value).1, (cut .outside value).2.map parameter)

theorem cut_plain {w : List UInt8} (hw : ∀ b ∈ w, b ≠ semicolon ∧ b ≠ quote) (t : List UInt8) :
    cut .outside (w ++ t) = (w ++ (cut .outside t).1, (cut .outside t).2) := by
  induction w with
  | nil => rfl
  | cons b w ih =>
    have hb := hw b List.mem_cons_self
    rw [List.cons_append, cut, if_neg (fun h => hb.1 h.2), Place.next, if_neg hb.2,
      ih fun c hc => hw c (List.mem_cons_of_mem b hc)]
    rfl

theorem cut_semicolon (t : List UInt8) :
    cut .outside (semicolon :: t) = ([], (cut .outside t).1 :: (cut .outside t).2) := by
  rw [cut, if_pos ⟨rfl, rfl⟩]

/-- A value in quotes. -/
def escape (w : List UInt8) : List UInt8 :=
  w.flatMap fun b => if b = quote ∨ b = backslash then [backslash, b] else [b]

/-- What is in quotes, up to the closing one. -/
def unescape : Bool → List UInt8 → Option (List UInt8)
  | _, [] => none
  | true, b :: t => (unescape false t).map (b :: ·)
  | false, b :: t =>
    if b = backslash then unescape true t
    else if b = quote then (if t = [] then some [] else none)
    else (unescape false t).map (b :: ·)

/-- **The meaning of a value in quotes.** -/
def unquote : List UInt8 → Option (List UInt8)
  | [] => none
  | b :: t => if b = quote then unescape false t else none

theorem escape_cons_special {b : UInt8} (hb : b = quote ∨ b = backslash) (w : List UInt8) :
    escape (b :: w) = backslash :: b :: escape w := by
  rw [escape, List.flatMap_cons, if_pos hb]
  rfl

theorem escape_cons_plain {b : UInt8} (hb : ¬ (b = quote ∨ b = backslash)) (w : List UInt8) :
    escape (b :: w) = b :: escape w := by
  rw [escape, List.flatMap_cons, if_neg hb]
  rfl

theorem cut_escape (w t : List UInt8) :
    cut .inside (escape w ++ t) = (escape w ++ (cut .inside t).1, (cut .inside t).2) := by
  induction w with
  | nil => rfl
  | cons b w ih =>
    by_cases hb : b = quote ∨ b = backslash
    · rw [escape_cons_special hb, List.cons_append, List.cons_append, cut, if_neg (by simp), Place.next, if_pos rfl,
        cut, if_neg (by simp), Place.next, ih]
      rfl
    · rw [escape_cons_plain hb, List.cons_append, cut, if_neg (by simp), Place.next, if_neg (fun h => hb (Or.inr h)),
        if_neg (fun h => hb (Or.inl h)), ih]
      rfl

theorem cut_quoted (w : List UInt8) :
    cut .outside (quote :: escape w ++ [quote]) = (quote :: escape w ++ [quote], []) := by
  have ho : ¬ (Place.outside = .outside ∧ quote = semicolon) := by decide
  have hc : cut .inside [quote] = ([quote], []) := by decide
  rw [List.cons_append, cut, if_neg ho, Place.next, if_pos rfl, cut_escape, hc]

theorem unescape_escape (w : List UInt8) : unescape false (escape w ++ [quote]) = some w := by
  induction w with
  | nil => decide
  | cons b w ih =>
    by_cases hb : b = quote ∨ b = backslash
    · rw [escape_cons_special hb, List.cons_append, List.cons_append, unescape, if_pos rfl, unescape, ih]
      rfl
    · rw [escape_cons_plain hb, List.cons_append, unescape, if_neg (fun h => hb (Or.inr h)),
        if_neg (fun h => hb (Or.inl h)), ih]
      rfl

theorem unquote_escape (w : List UInt8) : unquote (quote :: escape w ++ [quote]) = some w := by
  rw [List.cons_append, unquote, if_pos rfl, unescape_escape]

/-- An upper case digit of base 16. -/
def hexUpper (n : ℕ) : UInt8 := if n < 10 then UInt8.ofNat (0x30 + n) else UInt8.ofNat (0x41 + (n - 10))

/-- The value of a digit of base 16. -/
def hexValue (b : UInt8) : Option ℕ :=
  if 0x30 ≤ b ∧ b ≤ 0x39 then some (b.toNat - 0x30)
  else if 0x41 ≤ b ∧ b ≤ 0x46 then some (b.toNat - 0x41 + 10)
  else if 0x61 ≤ b ∧ b ≤ 0x66 then some (b.toNat - 0x61 + 10)
  else none

/-- Percent encoding, but for what is kept. -/
def percentEncode (keep : UInt8 → Bool) (w : List UInt8) : List UInt8 :=
  w.flatMap fun b => if keep b then [b] else [percent, hexUpper (b.toNat / 16), hexUpper (b.toNat % 16)]

/-- **The meaning of a value in percent encoding.** -/
def percentDecode : List UInt8 → Option (List UInt8)
  | [] => some []
  | b :: t =>
    if b = percent then
      match t with
      | high :: low :: t =>
        match hexValue high, hexValue low with
        | some h, some l => (percentDecode t).map (UInt8.ofNat (16 * h + l) :: ·)
        | _, _ => none
      | _ => none
    else (percentDecode t).map (b :: ·)

theorem hexValue_hexUpper : ∀ n < 16, hexValue (hexUpper n) = some n := by decide

theorem percentDecode_cons_encoded (b : UInt8) (t : List UInt8) :
    percentDecode (percent :: hexUpper (b.toNat / 16) :: hexUpper (b.toNat % 16) :: t) =
      (percentDecode t).map (b :: ·) := by
  have hlt := b.toNat_lt
  have hv : UInt8.ofNat (16 * (b.toNat / 16) + b.toNat % 16) = b := by
    rw [Nat.div_add_mod]
    exact UInt8.ofNat_toNat
  rw [percentDecode, if_pos rfl, hexValue_hexUpper _ (by omega), hexValue_hexUpper _ (by omega)]
  simp only [hv]

theorem percentDecode_encode {keep : UInt8 → Bool} (hk : keep percent = false) (w : List UInt8) :
    percentDecode (percentEncode keep w) = some w := by
  induction w with
  | nil => rfl
  | cons b w ih =>
    rw [percentEncode, List.flatMap_cons]
    split_ifs with hb
    · have hne : b ≠ percent := by
        rintro rfl
        simp [hk] at hb
      rw [List.singleton_append, percentDecode.eq_def]
      simp only [if_neg hne]
      rw [← percentEncode, ih]
      rfl
    · rw [← percentEncode]
      show percentDecode (percent :: hexUpper (b.toNat / 16) :: hexUpper (b.toNat % 16) :: percentEncode keep w) = _
      rw [percentDecode_cons_encoded, ih]
      rfl

/-- **The meaning of an extended value.** -/
def extended (value : List UInt8) : Option (List UInt8 × List UInt8) :=
  let language := value.dropWhile (· != apostrophe)
  let text := (language.drop 1).dropWhile (· != apostrophe)
  if text = [] then none
  else (percentDecode (text.drop 1)).map fun bytes => (value.takeWhile (· != apostrophe), bytes)

end HeaderField

end Sipi.Theory
