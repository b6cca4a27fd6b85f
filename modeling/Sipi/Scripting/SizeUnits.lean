import Sipi.Theory.Utf8
import Sipi.Serve.Disposition
import Sipi.Serve.DocrootRange

/-!
# Sizes with units

A limit such as the size of the cache is a number of bytes, or of megabytes with an `M` and of gigabytes with a
`G`.

## Honest scope

A product that does not fit is an error here and undefined in the source.
-/

namespace Sipi.Scripting

open Sipi.Iiif Sipi.Serve Sipi.Theory

/-- The numbers of an `int64_t`. -/
def InInt64 (v : ℤ) : Prop := -2 ^ 63 ≤ v ∧ v < 2 ^ 63

instance (v : ℤ) : Decidable (InInt64 v) := inferInstanceAs (Decidable (_ ∧ _))

/-- A sign at the start, and the rest. -/
def takeSign {α : Type} [DecidableEq α] (plus minus : α) : List α → Bool × List α
  | [] => (false, [])
  | a :: t => if a = minus then (true, t) else if a = plus then (false, t) else (false, a :: t)

/-- A number with its sign. -/
def signed (negative : Bool) (n : ℕ) : ℤ := if negative then -(n : ℤ) else n

/-- `str::parse::<i64>`. -/
def parseI64 (s : Str) : Option ℤ :=
  ((parseDigits (takeSign '+' '-' s).2).map (signed (takeSign '+' '-' s).1)).filter fun v => InInt64 v

/-- `i64::checked_mul`. -/
def checkedMul (mult v : ℤ) : Option ℤ := if InInt64 (v * mult) then some (v * mult) else none

/-- The suffix for megabytes. -/
def isMega (last : Option UInt8) : Prop := last = some 0x4D ∨ last = some 0x6D

/-- The suffix for gigabytes. -/
def isGiga (last : Option UInt8) : Prop := last = some 0x47 ∨ last = some 0x67

instance (last : Option UInt8) : Decidable (isMega last) := inferInstanceAs (Decidable (_ ∨ _))

instance (last : Option UInt8) : Decidable (isGiga last) := inferInstanceAs (Decidable (_ ∨ _))

/-- The number and the unit of a text. -/
def digitsAndMult (s : Str) : Str × ℤ :=
  if isMega (asBytes s).getLast? then (s.dropLast, 1024 * 1024)
  else if isGiga (asBytes s).getLast? then (s.dropLast, 1024 * 1024 * 1024)
  else (s, 1)

/-- `parse_size_string`. -/
def parseSizeString (s : Str) : Except Str ℤ :=
  if s = [] then .ok 0
  else if s = txt "-1" then .ok (-1)
  else
    match (parseI64 (trim (digitsAndMult s).1)).bind (checkedMul (digitsAndMult s).2) with
    | some v => .ok v
    | none => .error (txt "invalid size value '" ++ s ++ txt "'")

/-- Why `parseSizeString` gives no number. -/
inductive SizeError where
  | invalidArgument
  | outOfRange
  | overflow
  deriving DecidableEq

/-- `isspace`. -/
def isSpaceByte (b : UInt8) : Bool := b = 0x20 || (9 ≤ b.toNat && b.toNat ≤ 13)

/-- A digit. -/
def isDigitByte (b : UInt8) : Bool := 48 ≤ b.toNat && b.toNat ≤ 57

/-- The value of digits. -/
def bytesVal (bs : List UInt8) : ℕ := bs.foldl (fun n b => 10 * n + (b.toNat - 48)) 0

/-- `std::stoll`. -/
def stoll (str : List UInt8) : Except SizeError ℤ :=
  let rest := takeSign 0x2B 0x2D (str.dropWhile isSpaceByte)
  let digits := rest.2.takeWhile isDigitByte
  if digits = [] then .error .invalidArgument
  else if InInt64 (signed rest.1 (bytesVal digits)) then .ok (signed rest.1 (bytesVal digits))
  else .error .outOfRange

/-- A product of `long long`s. -/
def mul64 (m v : ℤ) : Except SizeError ℤ := if InInt64 (v * m) then .ok (v * m) else .error .overflow

/-- `parseSizeString` of the engine. -/
def cppParseSizeString (str : List UInt8) : Except SizeError ℤ :=
  if str = [] then .ok 0
  else if str = wordBytes "-1" then .ok (-1)
  else if isMega str.getLast? then stoll str.dropLast >>= mul64 1024 >>= mul64 1024
  else if isGiga str.getLast? then stoll str.dropLast >>= mul64 1024 >>= mul64 1024 >>= mul64 1024
  else stoll str

/-- The bytes in front of a suffix. -/
def digitsPart (str : List UInt8) : List UInt8 :=
  if isMega str.getLast? ∨ isGiga str.getLast? then str.dropLast else str

/-- The unit that a suffix stands for. -/
def unitOf (str : List UInt8) : ℤ :=
  if isMega str.getLast? then 1024 * 1024 else if isGiga str.getLast? then 1024 * 1024 * 1024 else 1

theorem mul64_bind (m v : ℤ) : (mul64 m v >>= mul64 1024) = mul64 (m * 1024) v := by
  have ha : v * (m * 1024) = v * m * 1024 := (mul_assoc v m 1024).symm
  unfold mul64
  rw [ha]
  by_cases hf : InInt64 (v * m)
  · rw [if_pos hf]
    rfl
  · have hs : ¬ InInt64 (v * m * 1024) := by
      unfold InInt64 at hf ⊢
      omega
    rw [if_neg hf, if_neg hs]
    rfl

theorem cppParseSizeString_eq {str : List UInt8} (hne : str ≠ []) :
    cppParseSizeString str = stoll (digitsPart str) >>= mul64 (unitOf str) := by
  have ho : ∀ x : Except SizeError ℤ, (∀ v, x = .ok v → InInt64 v) → (x >>= mul64 1) = x := by
    intro x hx
    cases x with
    | error e => rfl
    | ok v =>
      show mul64 1 v = .ok v
      rw [mul64, mul_one, if_pos (hx v rfl)]
  have hf : ∀ s v, stoll s = .ok v → InInt64 v := by
    intro s v h
    unfold stoll at h
    dsimp only at h
    split_ifs at h with hd hin
    rwa [← Except.ok.inj h]
  have hb : ∀ x : Except SizeError ℤ, ∀ m, (x >>= mul64 m >>= mul64 1024) = x >>= mul64 (m * 1024) := by
    intro x m
    cases x with
    | error e => rfl
    | ok v => exact mul64_bind m v
  rw [cppParseSizeString, if_neg hne, digitsPart, unitOf]
  by_cases hmn : str = wordBytes "-1"
  · rw [if_pos hmn, hmn]
    decide
  rw [if_neg hmn]
  by_cases hm : isMega str.getLast?
  · rw [if_pos hm, if_pos (Or.inl hm), if_pos hm, hb]
  by_cases hg : isGiga str.getLast?
  · rw [if_neg hm, if_pos hg, if_pos (Or.inr hg), if_neg hm, if_pos hg,
      hb (stoll str.dropLast) 1024, hb]
  · rw [if_neg hm, if_neg hg, if_neg (not_or.mpr ⟨hm, hg⟩), if_neg hm, if_neg hg,
      ho _ (hf str)]

/-- No white space, no sign and no digit. -/
def IsOther (b : UInt8) : Prop := isSpaceByte b = false ∧ b ≠ 0x2B ∧ b ≠ 0x2D ∧ isDigitByte b = false

variable {spaces rest : List UInt8}

theorem dropWhile_spaces (hs : ∀ b ∈ spaces, isSpaceByte b = true)
    (hr : ∀ b t, rest = b :: t → isSpaceByte b = false) : (spaces ++ rest).dropWhile isSpaceByte = rest :=
  (takeWhile_dropWhile_eq_iff.mpr ⟨rfl, hs, hr⟩).2

theorem stoll_number {number digits : List UInt8} {negative : Bool} (hs : ∀ b ∈ spaces, isSpaceByte b = true)
    (hsg : takeSign 0x2B 0x2D (number ++ rest) = (negative, digits ++ rest))
    (hf : ∀ b t, number ++ rest = b :: t → isSpaceByte b = false) (hne : digits ≠ [])
    (hd : ∀ b ∈ digits, isDigitByte b = true) (hr : ∀ b t, rest = b :: t → isDigitByte b = false) :
    stoll (spaces ++ (number ++ rest)) =
      if InInt64 (signed negative (bytesVal digits)) then .ok (signed negative (bytesVal digits))
      else .error .outOfRange := by
  have ht : (digits ++ rest).takeWhile isDigitByte = digits :=
    (takeWhile_dropWhile_eq_iff.mpr ⟨rfl, hd, hr⟩).1
  unfold stoll
  rw [dropWhile_spaces hs hf, hsg]
  dsimp only
  rw [ht, if_neg hne]

variable {b : UInt8}

theorem stoll_other (hs : ∀ b ∈ spaces, isSpaceByte b = true)
    (ho : IsOther b) : stoll (spaces ++ b :: rest) = .error .invalidArgument := by
  obtain ⟨hsp, hp, hm, hd⟩ := ho
  have hf : ∀ c t, b :: rest = c :: t → isSpaceByte c = false := by
    rintro c t h
    rwa [← (List.cons.inj h).1]
  have hn : (b :: rest).takeWhile isDigitByte = [] := by simp [hd]
  unfold stoll
  rw [dropWhile_spaces hs hf, takeSign, if_neg hm, if_neg hp]
  dsimp only
  rw [if_pos hn]

theorem asBytes_cons (c : Char) (t : Str) : asBytes (c :: t) = String.utf8EncodeChar c ++ asBytes t :=
  List.flatMap_cons

variable {s : Str}

theorem asBytes_ne_nil (h : s ≠ []) : asBytes s ≠ [] := by
  cases s with
  | nil => exact absurd rfl h
  | cons c t => simp [asBytes, String.utf8EncodeChar_ne_nil]

variable {c : Char}

theorem space_of_white (h : isWhitespace c = true) (ha : c.toNat < 128) :
    ∃ b, String.utf8EncodeChar c = [b] ∧ isSpaceByte b = true := by
  refine ⟨_, Utf8.encode_ascii ha, ?_⟩
  have hc : c.toNat = 32 ∨ 9 ≤ c.toNat ∧ c.toNat ≤ 13 := by
    rcases eq_or_ne c ' ' with rfl | hb
    · exact Or.inl rfl
    · simp [isWhitespace, isSpace, hb] at h
      omega
  have hby := Utf8.toNat_byte ha
  have hb : (0x20 : UInt8).toNat = 32 := rfl
  simp only [isSpaceByte, Bool.or_eq_true, decide_eq_true_eq, Bool.and_eq_true, ← UInt8.toNat_inj, hby, hb]
  omega

theorem isOther_of_high (h : 128 ≤ b.toNat) : IsOther b := by
  have hl : ∀ n : UInt8, n.toNat < 128 → b ≠ n := by
    rintro n hn rfl
    omega
  refine ⟨?_, hl 0x2B (by decide), hl 0x2D (by decide), ?_⟩
  · simp only [isSpaceByte, Bool.or_eq_false_iff, decide_eq_false_iff_not, Bool.and_eq_false_imp, decide_eq_true_eq]
    exact ⟨hl 0x20 (by decide), fun _ => by omega⟩
  · simp only [isDigitByte, Bool.and_eq_false_imp, decide_eq_true_eq, decide_eq_false_iff_not]
    omega

theorem byte_of_digit (h : c.isDigit = true) :
    String.utf8EncodeChar c = [UInt8.ofNat c.toNat] ∧ (UInt8.ofNat c.toNat).toNat = c.toNat ∧ 48 ≤ c.toNat ∧
      c.toNat ≤ 57 := by
  have hc : 48 ≤ c.toNat ∧ c.toNat ≤ 57 := by
    simpa [Char.isDigit, UInt32.le_iff_toNat_le] using h
  exact ⟨Utf8.encode_ascii (by omega), Utf8.toNat_byte (by omega), hc⟩

theorem isDigitByte_of_digit (h : c.isDigit = true) : isDigitByte (UInt8.ofNat c.toNat) = true := by
  obtain ⟨-, hb, hl, hh⟩ := byte_of_digit h
  simp only [isDigitByte, hb, Bool.and_eq_true, decide_eq_true_eq]
  exact ⟨hl, hh⟩

theorem bytes_of_digits {digits : Str} (h : ∀ c ∈ digits, c.isDigit = true) :
    (∀ b ∈ asBytes digits, isDigitByte b = true) ∧ bytesVal (asBytes digits) = digitsVal digits := by
  have hf : ∀ start, (asBytes digits).foldl (fun n b => 10 * n + (b.toNat - 48)) start =
      digits.foldl (fun n c => 10 * n + (c.toNat - '0'.toNat)) start := by
    induction digits with
    | nil => intro start; rfl
    | cons c t ih =>
      intro start
      obtain ⟨he, hby, -, -⟩ := byte_of_digit (h c List.mem_cons_self)
      rw [asBytes_cons, he, List.singleton_append, List.foldl_cons, List.foldl_cons, hby,
        ih fun d hd => h d (List.mem_cons_of_mem c hd)]
      rfl
  refine ⟨fun b hb => ?_, hf 0⟩
  obtain ⟨c, hc, hbc⟩ := List.mem_flatMap.mp hb
  rw [(byte_of_digit (h c hc)).1, List.mem_singleton] at hbc
  rw [hbc]
  exact isDigitByte_of_digit (h c hc)

theorem not_digit_of_white {trail : Str} (h : ∀ c ∈ trail, isWhitespace c = true) :
    ∀ b t, asBytes trail = b :: t → isDigitByte b = false := by
  intro b t hbt
  cases trail with
  | nil => cases hbt
  | cons c trail =>
    have hw := h c List.mem_cons_self
    rw [asBytes_cons] at hbt
    rcases Nat.lt_or_ge c.toNat 128 with ha | hh
    · obtain ⟨d, hd, hs⟩ := space_of_white hw ha
      rw [hd, List.singleton_append, List.cons_eq_cons] at hbt
      rw [hbt.1] at hs
      simp only [isSpaceByte, Bool.or_eq_true, decide_eq_true_eq, Bool.and_eq_true] at hs
      simp only [isDigitByte, Bool.and_eq_false_imp, decide_eq_true_eq, decide_eq_false_iff_not]
      rcases hs with rfl | hs
      · decide
      · omega
    · have hm : b ∈ String.utf8EncodeChar c := by
        cases he : String.utf8EncodeChar c with
        | nil => exact absurd he String.utf8EncodeChar_ne_nil
        | cons d u =>
          rw [he, List.cons_append, List.cons_eq_cons] at hbt
          rw [hbt.1]
          exact List.mem_cons_self
      exact (isOther_of_high (Utf8.high_of_mem_encode hh hm)).2.2.2

theorem takeSign_bytes {number : Str} (rest : List UInt8) (hne : (takeSign '+' '-' number).2 ≠ [])
    (hd : ∀ c ∈ (takeSign '+' '-' number).2, c.isDigit = true) :
    takeSign 0x2B 0x2D (asBytes number ++ rest) =
        ((takeSign '+' '-' number).1, asBytes (takeSign '+' '-' number).2 ++ rest) ∧
      ∀ b t, asBytes number ++ rest = b :: t → isSpaceByte b = false := by
  cases number with
  | nil => exact absurd rfl hne
  | cons c t =>
    have hh : ∀ b, String.utf8EncodeChar c = [b] → isSpaceByte b = false →
        ∀ d v, asBytes (c :: t) ++ rest = d :: v → isSpaceByte d = false := by
      intro b he hs d v hdv
      rw [asBytes_cons, he, List.singleton_append, List.cons_append, List.cons_eq_cons] at hdv
      rwa [← hdv.1]
    by_cases hm : c = '-'
    · subst hm
      exact ⟨rfl, hh 0x2D rfl rfl⟩
    by_cases hp : c = '+'
    · subst hp
      exact ⟨rfl, hh 0x2B rfl rfl⟩
    have hsm : takeSign '+' '-' (c :: t) = (false, c :: t) := by simp [takeSign, hm, hp]
    rw [hsm] at hd ⊢
    obtain ⟨he, hb, hl, hhg⟩ := byte_of_digit (hd c List.mem_cons_self)
    have hnt : ∀ n : UInt8, n.toNat < 48 → UInt8.ofNat c.toNat ≠ n := by
      rintro n hn rfl
      omega
    have hs : isSpaceByte (UInt8.ofNat c.toNat) = false := by
      simp only [isSpaceByte, hb, Bool.or_eq_false_iff, decide_eq_false_iff_not, Bool.and_eq_false_imp,
        decide_eq_true_eq]
      exact ⟨hnt 0x20 (by decide), fun _ => by omega⟩
    refine ⟨?_, hh _ he hs⟩
    rw [asBytes_cons, he, List.singleton_append, List.cons_append, takeSign,
      if_neg (hnt 0x2D (by decide)), if_neg (hnt 0x2B (by decide))]

theorem dropLast_bytes (h : (asBytes s).getLast? = some b) (hl : b.toNat < 128) :
    (asBytes s).dropLast = asBytes s.dropLast := by
  obtain ⟨t, c, rfl, he, -⟩ := Utf8.eq_concat_of_last_low h hl
  have hb : asBytes (t ++ [c]) = asBytes t ++ [b] := by
    simp [asBytes, he]
  rw [hb, List.dropLast_concat, List.dropLast_concat]

theorem last_of_suffix {last : Option UInt8} (h : isMega last ∨ isGiga last) :
    ∃ b : UInt8, last = some b ∧ 65 ≤ b.toNat ∧ b.toNat < 128 := by
  rcases h with (rfl | rfl) | (rfl | rfl) <;> exact ⟨_, rfl, by decide, by decide⟩

theorem digitsPart_bytes (s : Str) :
    digitsPart (asBytes s) = asBytes (digitsAndMult s).1 ∧ unitOf (asBytes s) = (digitsAndMult s).2 := by
  have hd : isMega (asBytes s).getLast? ∨ isGiga (asBytes s).getLast? →
      (asBytes s).dropLast = asBytes s.dropLast := by
    intro h
    obtain ⟨b, hl, -, hlw⟩ := last_of_suffix h
    exact dropLast_bytes hl hlw
  unfold digitsPart unitOf digitsAndMult
  by_cases hm : isMega (asBytes s).getLast?
  · simp [hm, hd (Or.inl hm)]
  by_cases hg : isGiga (asBytes s).getLast?
  · simp [hm, hg, hd (Or.inr hg)]
  · simp [hm, hg]

theorem takeWhile_digitsAndMult (s : Str) :
    (digitsAndMult s).1.takeWhile isWhitespace = s.takeWhile isWhitespace := by
  have hs : isMega (asBytes s).getLast? ∨ isGiga (asBytes s).getLast? →
      s.dropLast.takeWhile isWhitespace = s.takeWhile isWhitespace := by
    intro h
    obtain ⟨b, hls, hl, hlw⟩ := last_of_suffix h
    obtain ⟨t, c, rfl, -, hc⟩ := Utf8.eq_concat_of_last_low hls hlw
    have hw : isWhitespace c = false := by
      have hb : c ≠ ' ' := by
        rintro rfl
        exact absurd hc (Nat.ne_of_lt (lt_of_lt_of_le (by decide) hl))
      simp [isWhitespace, isSpace, hb]
      omega
    rw [List.dropLast_concat, List.takeWhile_append]
    split_ifs with ha
    · rw [List.takeWhile_cons_of_neg (by simp [hw]), List.append_nil]
      exact (List.takeWhile_prefix _).eq_of_length ha
    · rfl
  unfold digitsAndMult
  split_ifs with hm hg
  · exact hs (Or.inl hm)
  · exact hs (Or.inr hg)
  · rfl

/-! ### One meaning -/

/-- No white space in front is beyond ASCII. -/
def LeadsAscii (s : Str) : Prop := ∀ c ∈ s.takeWhile isWhitespace, c.toNat < 128

instance (s : Str) : Decidable (LeadsAscii s) := inferInstanceAs (Decidable (∀ c ∈ _, _))

theorem spaces_of_white {lead : Str} (hw : ∀ c ∈ lead, isWhitespace c = true) (ha : ∀ c ∈ lead, c.toNat < 128) :
    ∀ b ∈ asBytes lead, isSpaceByte b = true := by
  intro b hb
  obtain ⟨c, hc, hbc⟩ := List.mem_flatMap.mp hb
  obtain ⟨d, hd, hs⟩ := space_of_white (hw c hc) (ha c hc)
  rw [hd, List.mem_singleton] at hbc
  rwa [hbc]

theorem stoll_lead {lead : Str} (rest : List UInt8) (hw : ∀ c ∈ lead, isWhitespace c = true)
    (hb : ¬ ∀ c ∈ lead, c.toNat < 128) : stoll (asBytes lead ++ rest) = .error .invalidArgument := by
  have hs := List.takeWhile_append_dropWhile (p := fun c : Char => decide (c.toNat < 128)) (l := lead)
  cases hdr : lead.dropWhile fun c : Char => decide (c.toNat < 128) with
  | nil =>
    rw [List.dropWhile_eq_nil_iff] at hdr
    exact absurd (fun c hc => of_decide_eq_true (hdr c hc)) hb
  | cons c t =>
    rw [hdr] at hs
    have hh : 128 ≤ c.toNat := by
      have := List.head?_dropWhile_not (fun c : Char => decide (c.toNat < 128)) lead
      rw [hdr] at this
      simpa using this
    cases he : String.utf8EncodeChar c with
    | nil => exact absurd he String.utf8EncodeChar_ne_nil
    | cons b u =>
      have hby : asBytes lead =
          asBytes (lead.takeWhile fun c => decide (c.toNat < 128)) ++ b :: (u ++ asBytes t) := by
        conv_lhs => rw [← hs]
        simp [asBytes, he]
      rw [hby, List.append_assoc, List.cons_append]
      refine stoll_other (spaces_of_white (fun d hd => ?_) fun d hd => ?_) (isOther_of_high ?_)
      · exact hw d (List.takeWhile_subset _ hd)
      · simpa using List.mem_takeWhile_imp hd
      · exact Utf8.high_of_mem_encode hh (by rw [he]; exact List.mem_cons_self)

theorem parseI64_eq_some {n : ℤ} (h : parseI64 s = some n) :
    (takeSign '+' '-' s).2 ≠ [] ∧ (∀ c ∈ (takeSign '+' '-' s).2, c.isDigit = true) ∧
      signed (takeSign '+' '-' s).1 (digitsVal (takeSign '+' '-' s).2) = n ∧ InInt64 n := by
  unfold parseI64 at h
  rw [Option.filter_eq_some_iff, Option.map_eq_some_iff] at h
  obtain ⟨⟨k, hk, hs⟩, hin⟩ := h
  unfold parseDigits at hk
  split_ifs at hk with hd
  rw [← Option.some.inj hk] at hs
  exact ⟨hd.1, List.all_eq_true.mp hd.2, hs, of_decide_eq_true hin⟩

theorem stoll_asBytes {d : Str} {n : ℤ} (h : parseI64 (trim d) = some n) :
    stoll (asBytes d) = if LeadsAscii d then .ok n else .error .invalidArgument := by
  obtain ⟨hne, hdg, hv, hin⟩ := parseI64_eq_some h
  obtain ⟨trail, ht, hw⟩ := exists_rdropWhile isWhitespace (d.dropWhile isWhitespace)
  have hl : ∀ c ∈ d.takeWhile isWhitespace, isWhitespace c = true := fun c hc => List.mem_takeWhile_imp hc
  have hd : asBytes d = asBytes (d.takeWhile isWhitespace) ++ (asBytes (trim d) ++ asBytes trail) := by
    conv_lhs => rw [← List.takeWhile_append_dropWhile (p := isWhitespace) (l := d), ht]
    simp [asBytes, trim, trimStart]
  rw [hd]
  split_ifs with ha
  · obtain ⟨hs, hf⟩ := takeSign_bytes (asBytes trail) hne hdg
    obtain ⟨hb, hvl⟩ := bytes_of_digits hdg
    rw [stoll_number (spaces_of_white hl ha) hs hf (asBytes_ne_nil hne) hb
      (not_digit_of_white hw), hvl, hv, if_pos hin]
  · exact stoll_lead _ hl ha

/-- It throws, or gives the number of bytes. -/
def ExactSize (str : List UInt8) : Prop :=
  match cppParseSizeString str with
  | .ok v => (str = [] ∧ v = 0) ∨ ∃ n, stoll (digitsPart str) = .ok n ∧ v = n * unitOf str
  | .error e => e ≠ .overflow

theorem exactSize_iff (str : List UInt8) :
    ExactSize str ↔ ∀ n, stoll (digitsPart str) = .ok n → InInt64 (n * unitOf str) := by
  unfold ExactSize
  rcases eq_or_ne str [] with rfl | hne
  · refine iff_of_true (Or.inl ⟨rfl, rfl⟩) ?_
    rintro n ⟨⟩
  rw [cppParseSizeString_eq hne]
  cases hs : stoll (digitsPart str) with
  | error e =>
    refine iff_of_true ?_ (by simp)
    show e ≠ .overflow
    unfold stoll at hs
    dsimp only at hs
    split_ifs at hs <;> rw [← Except.error.inj hs] <;> simp
  | ok n =>
    show (match mul64 (unitOf str) n with
      | .ok v => (str = [] ∧ v = 0) ∨ ∃ m, Except.ok n = .ok m ∧ v = m * unitOf str
      | .error e => e ≠ SizeError.overflow) ↔ _
    unfold mul64
    by_cases hin : InInt64 (n * unitOf str)
    · rw [if_pos hin]
      refine iff_of_true (Or.inr ⟨n, rfl, rfl⟩) ?_
      rintro m ⟨⟩
      exact hin
    · rw [if_neg hin]
      exact iff_of_false (fun h => h rfl) fun h => hin (h n rfl)

theorem engine_reads_iff {v : ℤ} (h : parseSizeString s = .ok v) :
    cppParseSizeString (asBytes s) = .ok v ↔ LeadsAscii s := by
  unfold parseSizeString at h
  split_ifs at h with he hm
  · subst he
    rw [← Except.ok.inj h]
    exact iff_of_true rfl (by simp [LeadsAscii])
  · subst hm
    rw [← Except.ok.inj h]
    exact iff_of_true rfl (List.all_iff_forall_prop.mp rfl)
  obtain ⟨hp, hu⟩ := digitsPart_bytes s
  have hs : LeadsAscii s ↔ LeadsAscii (digitsAndMult s).1 := by
    rw [LeadsAscii, LeadsAscii, takeWhile_digitsAndMult s]
  cases hnm : (parseI64 (trim (digitsAndMult s).1)).bind (checkedMul (digitsAndMult s).2) with
  | none => simp [hnm] at h
  | some w =>
    rw [hnm] at h
    cases h
    obtain ⟨n, hn, hml⟩ := Option.bind_eq_some_iff.mp hnm
    unfold checkedMul at hml
    split_ifs at hml with hin
    rw [cppParseSizeString_eq (asBytes_ne_nil he), hp, hu, stoll_asBytes hn, hs]
    split_ifs with hl
    · refine iff_of_true ?_ hl
      show mul64 _ n = _
      rw [mul64, if_pos hin, Option.some.inj hml]
    · exact iff_of_false (fun h => by cases h) hl

/-- **One meaning for sizes.** What the shell takes, the engine reads as the same number, exactly if no white space in
front of it is beyond ASCII. The engine throws or ends with the exact size, exactly if the size fits 64 bits. -/
theorem sameSize_iff (s : Str) (str : List UInt8) :
    (∀ v, parseSizeString s = .ok v → (cppParseSizeString (asBytes s) = .ok v ↔ LeadsAscii s)) ∧
      (ExactSize str ↔ ∀ n, stoll (digitsPart str) = .ok n → InInt64 (n * unitOf str)) :=
  ⟨fun _ h => engine_reads_iff h, exactSize_iff str⟩

theorem sameSize_cache :
    parseSizeString (txt " 200M") = .ok 209715200 ∧ cppParseSizeString (asBytes (txt " 200M")) = .ok 209715200 ∧
      ExactSize (asBytes (txt " 200M")) := by
  obtain ⟨hr, he⟩ := sameSize_iff (txt " 200M") (asBytes (txt " 200M"))
  refine ⟨rfl, (hr 209715200 rfl).mpr (List.all_iff_forall_prop.mp rfl), he.mpr ?_⟩
  rintro n ⟨⟩
  decide

theorem nbsp_and_overflow :
    (parseSizeString (Char.ofNat 0xA0 :: txt "5") = .ok 5 ∧
        cppParseSizeString (asBytes (Char.ofNat 0xA0 :: txt "5")) = .error .invalidArgument) ∧
      cppParseSizeString (wordBytes "8589934592G") = .error .overflow ∧ ¬ ExactSize (wordBytes "8589934592G") := by
  have ho : cppParseSizeString (wordBytes "8589934592G") = .error .overflow := rfl
  refine ⟨⟨rfl, rfl⟩, ho, ?_⟩
  rw [ExactSize, ho]
  exact fun h => h rfl

end Sipi.Scripting
