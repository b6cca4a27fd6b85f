import Sipi.Iiif.Parse
import Mathlib.Tactic.NormNum

/-!
# The parameters of an image request

The component parsers of `src/iiifparser/rust/parse.rs` turn the four validated segments into `IiifParams`.

## Honest scope

A coordinate, a percentage and an angle are `f32` in the source and rationals here. The validators let only
decimals through, and `parseF32` reads those.
-/

namespace Sipi.Iiif

open Sipi.Theory

/-- The kind of a region. -/
inductive RegionKind where
  | full
  | square
  | coords
  | percents
  deriving DecidableEq, Repr

/-- The kind of a size. -/
inductive SizeKind where
  | undefined
  | full
  | pixelsXy
  | pixelsX
  | pixelsY
  | maxdim
  | percents
  | reduce
  deriving DecidableEq, Repr

/-- The quality. -/
inductive QualityKind where
  | default
  | color
  | gray
  | bitonal
  deriving DecidableEq, Repr

/-- The output format. -/
inductive FormatKind where
  | unsupported
  | jpg
  | tif
  | png
  | gif
  | jp2
  | pdf
  | webp
  deriving DecidableEq, Repr

/-- The parsed size. -/
structure SizeParts where
  kind : SizeKind
  upscaling : Bool
  percent : ℚ
  reduce : ℤ
  nx : ℕ
  ny : ℕ
  deriving DecidableEq, Repr

/-- The parsed parameters. -/
structure IiifParams where
  regionKind : RegionKind
  region : ℚ × ℚ × ℚ × ℚ
  size : SizeParts
  rotation : ℚ
  rotationMirror : Bool
  qualityKind : QualityKind
  formatKind : FormatKind
  deriving DecidableEq, Repr

/-- What a component parser refuses. -/
inductive ParamError where
  | region (s : Str)
  | sizeInvalid (s : Str)
  | sizeUnreadable (s : Str)
  | heightZero (s : Str)
  | widthZero (s : Str)
  | sizeZero (s : Str)
  | rotation (s : Str)
  | qualityFormat (s : Str)
  | quality (q : Str)
  deriving DecidableEq, Repr

/-- The text of a parameter error. -/
def ParamError.message : ParamError → Str
  | .region s => txt "IIIF Error reading Region parameter \"" ++ s ++ txt "\""
  | .sizeInvalid s => txt "Invalid IIIF size parameter: \"" ++ s ++ txt "\""
  | .sizeUnreadable s => txt "Could not parse IIIF size parameter: \"" ++ s ++ txt "\""
  | .heightZero s => txt "IIIF size height cannot be zero: \"" ++ s ++ txt "\""
  | .widthZero s => txt "IIIF size width cannot be zero: \"" ++ s ++ txt "\""
  | .sizeZero s => txt "IIIF size cannot be zero: \"" ++ s ++ txt "\""
  | .rotation s => txt "Could not parse IIIF rotation parameter: " ++ s
  | .qualityFormat s => txt "IIIF Error reading Quality+Format parameter \"" ++ s ++ txt "\" !"
  | .quality q => txt "IIIF Error reading Quality parameter \"" ++ q ++ txt "\" !"

/-- The value of a string of digits. -/
def digitsVal (s : Str) : ℕ := s.foldl (fun n c => 10 * n + (c.toNat - '0'.toNat)) 0

/-- A nonempty string of digits. -/
def parseDigits (s : Str) : Option ℕ :=
  if s ≠ [] ∧ s.all Char.isDigit then some (digitsVal s) else none

/-- `str::parse::<usize>`, on 64 bits. -/
def parseUsize (s : Str) : Option ℕ :=
  (parseDigits ((s.dropPrefix? ['+']).getD s)).filter (· < 2 ^ 64)

/-- `str::parse::<i32>`. -/
def parseI32 (s : Str) : Option ℤ :=
  let n := match s with
    | '-' :: t => (parseDigits t).map fun (n : ℕ) => -(n : ℤ)
    | '+' :: t => (parseDigits t).map fun (n : ℕ) => (n : ℤ)
    | t => (parseDigits t).map fun (n : ℕ) => (n : ℤ)
  n.filter fun n => -2 ^ 31 ≤ n ∧ n < 2 ^ 31

/-- `str::parse::<f32>` on a decimal, read exactly. -/
def parseF32 (s : Str) : Option ℚ :=
  match s.splitOn '.' with
  | [i] => (parseDigits i).map fun (n : ℕ) => (n : ℚ)
  | [i, f] => (parseDigits i).bind fun n => (parseDigits f).map fun (d : ℕ) => (n : ℚ) + (d : ℚ) / 10 ^ f.length
  | _ => none

/-- `parse_region`. -/
def parseRegion (s : Str) : Except ParamError (RegionKind × ℚ × ℚ × ℚ × ℚ) :=
  if s = txt "full" then .ok (.full, 0, 0, 0, 0)
  else if s = txt "square" then .ok (.square, 0, 0, 0, 0)
  else
    let (kind, body) := match s.dropPrefix? (txt "pct:") with
      | some b => (RegionKind.percents, b)
      | none => (RegionKind.coords, s)
    match body.splitOn ',' with
    | [x, y, w, h] =>
      match parseF32 x, parseF32 y, parseF32 w, parseF32 h with
      | some x, some y, some w, some h => .ok (kind, x, y, w, h)
      | _, _, _, _ => .error (.region s)
    | _ => .error (.region s)

/-- The hard cap on a requested dimension. -/
def limitdim : ℕ := 32000

/-- A dimension of a `w,h` size. -/
def parseDim (s v : Str) : Except ParamError ℕ :=
  match parseUsize v with
  | some n => .ok n
  | none => .error (.sizeUnreadable s)

/-- The `w,h` forms of `parse_size`. -/
def parseSizePair (s : Str) (upscaling exclamation : Bool) (width height : Str) : Except ParamError SizeParts := do
  if width = [] then
    if exclamation then throw (.sizeInvalid s)
    let ny ← parseDim s height
    if ny = 0 then throw (.heightZero s)
    return ⟨.pixelsY, upscaling, 0, 0, 0, min ny limitdim⟩
  else if height = [] then
    let nx ← parseDim s width
    if nx = 0 then throw (.widthZero s)
    return ⟨.pixelsX, upscaling, 0, 0, min nx limitdim, 0⟩
  else
    let nx ← parseDim s width
    let ny ← parseDim s height
    if nx = 0 ∨ ny = 0 then throw (.sizeZero s)
    return ⟨if exclamation then .maxdim else .pixelsXy, upscaling, 0, 0, min nx limitdim, min ny limitdim⟩

/-- `parse_size`, without its `red:` branch. -/
def parseSize (s : Str) : Except ParamError SizeParts :=
  let upscaling := (s.dropPrefix? ['^']).isSome
  let rest := (s.dropPrefix? ['^']).getD s
  let exclamation := (rest.dropPrefix? ['!']).isSome
  let rest := (rest.dropPrefix? ['!']).getD rest
  if rest = txt "max" ∨ rest = [] then .ok ⟨.full, upscaling, 0, 0, 0, 0⟩
  else
    match rest.dropPrefix? (txt "pct:") with
    | some p =>
      if exclamation then .error (.sizeInvalid s)
      else
        match parseF32 p with
        | none => .error (.sizeInvalid s)
        | some pct => .ok ⟨.percents, upscaling, if pct ≤ 1 / 10 ^ 12 then 1 else pct, 0, 0, 0⟩
    | none =>
      match rest.dropPrefix? (txt "red:") with
      | some p =>
        if exclamation then .error (.sizeInvalid s)
        else
          match parseI32 p with
          | none => .error (.sizeInvalid s)
          | some red => .ok ⟨.reduce, upscaling, 0, max red 0, 0, 0⟩
      | none =>
        if ',' ∈ rest then
          parseSizePair s upscaling exclamation (rest.takeWhile (· ≠ ',')) ((rest.dropWhile (· ≠ ',')).tail)
        else .error (.sizeUnreadable s)

/-- `parse_rotation`. -/
def parseRotation (s : Str) : Except ParamError (Bool × ℚ) :=
  if s = [] then .ok (false, 0)
  else
    match parseF32 ((s.dropPrefix? ['!']).getD s) with
    | some angle => .ok ((s.dropPrefix? ['!']).isSome, angle)
    | none => .error (.rotation s)

/-- The format after the dot. -/
def formatOf (f : Str) : FormatKind :=
  if f = txt "jpg" then .jpg
  else if f = txt "tif" then .tif
  else if f = txt "png" then .png
  else if f = txt "gif" then .gif
  else if f = txt "jp2" then .jp2
  else if f = txt "pdf" then .pdf
  else if f = txt "webp" then .webp
  else .unsupported

/-- `parse_quality_format`. -/
def parseQualityFormat (s : Str) : Except ParamError (QualityKind × FormatKind) :=
  if s = [] then .ok (.default, .jpg)
  else if '.' ∈ s then
    let q := s.takeWhile (· ≠ '.')
    let f := formatOf (s.dropWhile (· ≠ '.')).tail
    if q = txt "default" then .ok (.default, f)
    else if q = txt "color" then .ok (.color, f)
    else if q = txt "gray" then .ok (.gray, f)
    else if q = txt "bitonal" then .ok (.bitonal, f)
    else .error (.quality q)
  else .error (.qualityFormat s)

/-- `parse_iiif_params`. -/
def parseIiifParams (region size rotation qualform : Str) : Except ParamError IiifParams := do
  let (regionKind, coords) ← parseRegion region
  let sz ← parseSize size
  let (mirror, angle) ← parseRotation rotation
  let (qualityKind, formatKind) ← parseQualityFormat qualform
  return ⟨regionKind, coords, sz, angle, mirror, qualityKind, formatKind⟩

/-! ### The texts of sizes -/

variable {s : Str}

theorem parseDigits_eq_some {n : ℕ} : parseDigits s = some n ↔ s ∈ Grammar.posint ∧ digitsVal s = n := by
  unfold parseDigits
  rw [Grammar.posint, mem_runs, ← List.all_eq_true]
  split
  · next h => simp [h.1, h.2]
  · next h => exact iff_of_false (by simp) fun hs => h hs.1

theorem dot_not_mem_posint (h : s ∈ Grammar.posint) : '.' ∉ s :=
  avoids_runs (p := Char.isDigit) (a := '.') (by decide) s h

theorem parseF32_of_posint (h : s ∈ Grammar.posint) : parseF32 s = some (digitsVal s : ℚ) := by
  rw [parseF32, List.splitOn_eq_singleton (dot_not_mem_posint h)]
  simp [parseDigits_eq_some.mpr ⟨h, rfl⟩]

theorem parseF32_of_posfloat (h : s ∈ Grammar.posfloat) : ∃ v, parseF32 s = some v := by
  obtain ⟨i, hi, t, ht, rfl⟩ := Language.mem_mul.mp h
  rcases ht with ht | ht
  · rw [(Language.mem_one t).mp ht, List.append_nil]
    exact ⟨_, parseF32_of_posint hi⟩
  · obtain ⟨d, hd, f, hf, rfl⟩ := Language.mem_mul.mp ht
    obtain rfl : d = ['.'] := hd
    have hs : (i ++ (['.'] ++ f)).splitOn '.' = [i, f] := by
      rw [List.singleton_append, List.splitOn_append_cons_self_of_not_mem (dot_not_mem_posint hi),
        List.splitOn_eq_singleton (dot_not_mem_posint hf)]
    refine ⟨(digitsVal i : ℚ) + (digitsVal f : ℚ) / 10 ^ f.length, ?_⟩
    rw [parseF32, hs]
    simp [parseDigits_eq_some.mpr ⟨hi, rfl⟩, parseDigits_eq_some.mpr ⟨hf, rfl⟩]

theorem parseUsize_of_posint (h : s ∈ Grammar.posint) :
    parseUsize s = if digitsVal s < 2 ^ 64 then some (digitsVal s) else none := by
  have hh : s.head? ≠ some '+' := by
    intro hp
    have hd := (mem_runs.mp h).2 '+' (List.mem_of_mem_head? hp)
    exact absurd hd (by decide)
  have hs : (s.dropPrefix? ['+']).getD s = s := (dropPrefix?_mark false hh).2
  rw [parseUsize, hs, parseDigits_eq_some.mpr ⟨h, rfl⟩]
  simp [Option.filter_some]

/-- The text of a size with a comma. -/
def pairText (upscaling exclamation : Bool) (width height : Str) : Str :=
  mark upscaling '^' ++ (mark exclamation '!' ++ (width ++ ',' :: height))

variable {width : Str}

theorem head_pair (hw : ∀ c ∈ width, c.isDigit = true) (height : Str) :
    ∃ c t, width ++ ',' :: height = c :: t ∧ (c.isDigit = true ∨ c = ',') := by
  cases width with
  | nil => exact ⟨',', height, rfl, Or.inr rfl⟩
  | cons c t => exact ⟨c, t ++ ',' :: height, rfl, Or.inl (hw c List.mem_cons_self)⟩

theorem head_pair_ne (hw : ∀ c ∈ width, c.isDigit = true) (height : Str) {a : Char}
    (ha : a.isDigit = false) (hcm : a ≠ ',') : (width ++ ',' :: height).head? ≠ some a := by
  obtain ⟨c, t, heq, hc⟩ := head_pair hw height
  rw [heq]
  rintro ⟨⟩
  rcases hc with hc | hc
  · rw [ha] at hc
    cases hc
  · exact hcm hc

theorem takeWhile_comma (hw : ∀ c ∈ width, c.isDigit = true) (height : Str) :
    (width ++ ',' :: height).takeWhile (· ≠ ',') = width ∧
      ((width ++ ',' :: height).dropWhile (· ≠ ',')).tail = height := by
  have hne : ∀ c ∈ width, decide (c ≠ ',') = true := by
    intro c hc
    rw [decide_eq_true_eq]
    rintro rfl
    exact absurd (hw _ hc) (by decide)
  rw [List.takeWhile_append_of_pos hne, List.dropWhile_append_of_pos hne]
  simp

theorem head_pairText_ne (exclamation : Bool) (hw : ∀ c ∈ width, c.isDigit = true) (height : Str) :
    (mark exclamation '!' ++ (width ++ ',' :: height)).head? ≠ some '^' := by
  cases exclamation with
  | true => exact fun h => absurd (Option.some.inj h) (by decide)
  | false => exact head_pair_ne hw height (by decide) (by decide)

theorem parseSize_pairText (upscaling exclamation : Bool) (hw : ∀ c ∈ width, c.isDigit = true)
    (height : Str) : parseSize (pairText upscaling exclamation width height) =
      parseSizePair (pairText upscaling exclamation width height) upscaling exclamation width height := by
  obtain ⟨hb, hr⟩ := dropPrefix?_mark (a := '!') exclamation
    (head_pair_ne hw height (by decide) (by decide))
  obtain ⟨hup, haf⟩ := dropPrefix?_mark (a := '^') upscaling (head_pairText_ne exclamation hw height)
  obtain ⟨ht, hd⟩ := takeWhile_comma hw height
  obtain ⟨c, t, heq, hc⟩ := head_pair hw height
  have hl : ∀ a : Char, a.isDigit = false → a ≠ ',' → c ≠ a := by
    rintro a ha hcm rfl
    rcases hc with hc | hc
    · rw [ha] at hc
      cases hc
    · exact hcm hc
  have hp : (c :: t).dropPrefix? (txt "pct:") = none :=
    dropPrefix?_cons_of_ne (txt "ct:") t (hl 'p' (by decide) (by decide))
  have hrd : (c :: t).dropPrefix? (txt "red:") = none :=
    dropPrefix?_cons_of_ne (txt "ed:") t (hl 'r' (by decide) (by decide))
  unfold parseSize
  dsimp only
  rw [pairText, haf, hup, hb, hr, ht, hd, heq, if_neg, hp, hrd]
  · exact if_pos (by rw [← heq]; simp)
  · rintro (h | h)
    · exact hl 'm' (by decide) (by decide) (List.cons.inj h).1
    · cases h

theorem parseDim_bind {v : Str} (s : Str) (h : v ∈ Grammar.posint) (f : ℕ → Except ParamError SizeParts) :
    (parseDim s v >>= f) = if 2 ^ 64 ≤ digitsVal v then .error (.sizeUnreadable s) else f (digitsVal v) := by
  unfold parseDim
  rw [parseUsize_of_posint h]
  by_cases hv : digitsVal v < 2 ^ 64
  · rw [if_pos hv, if_neg (not_le.mpr hv)]
    rfl
  · rw [if_neg hv, if_pos (not_lt.mp hv)]
    rfl

theorem parseSizePair_width (upscaling exclamation : Bool) (h : width ∈ Grammar.posint) :
    parseSizePair s upscaling exclamation width [] =
      if 2 ^ 64 ≤ digitsVal width then .error (.sizeUnreadable s)
      else if digitsVal width = 0 then .error (.widthZero s)
      else .ok ⟨.pixelsX, upscaling, 0, 0, min (digitsVal width) limitdim, 0⟩ := by
  unfold parseSizePair
  rw [if_neg (mem_runs.mp h).1, if_pos rfl, parseDim_bind s h]
  rfl

variable {height : Str}

theorem parseSizePair_height (upscaling : Bool) (h : height ∈ Grammar.posint) :
    parseSizePair s upscaling false [] height =
      if 2 ^ 64 ≤ digitsVal height then .error (.sizeUnreadable s)
      else if digitsVal height = 0 then .error (.heightZero s)
      else .ok ⟨.pixelsY, upscaling, 0, 0, 0, min (digitsVal height) limitdim⟩ := by
  unfold parseSizePair
  rw [if_pos rfl, if_neg Bool.false_ne_true, parseDim_bind s h]
  rfl

theorem parseSizePair_both (upscaling exclamation : Bool) (hwd : width ∈ Grammar.posint)
    (hhg : height ∈ Grammar.posint) :
    parseSizePair s upscaling exclamation width height =
      if 2 ^ 64 ≤ digitsVal width ∨ 2 ^ 64 ≤ digitsVal height then .error (.sizeUnreadable s)
      else if digitsVal width = 0 ∨ digitsVal height = 0 then .error (.sizeZero s)
      else .ok ⟨if exclamation then .maxdim else .pixelsXy, upscaling, 0, 0, min (digitsVal width) limitdim,
        min (digitsVal height) limitdim⟩ := by
  unfold parseSizePair
  rw [if_neg (mem_runs.mp hwd).1, if_neg (mem_runs.mp hhg).1, parseDim_bind s hwd, parseDim_bind s hhg, ← ite_or]
  rfl

/-- The text of a region in pixels. -/
def pixelText (x y w h : Str) : Str := x ++ ',' :: (y ++ ',' :: (w ++ ',' :: h))

theorem comma_not_mem_posint (h : s ∈ Grammar.posint) : ',' ∉ s :=
  avoids_runs (p := Char.isDigit) (a := ',') (by decide) s h

theorem parseRegion_pixelText {x y w h : Str} (hx : x ∈ Grammar.posint) (hy : y ∈ Grammar.posint)
    (hw : w ∈ Grammar.posint) (hh : h ∈ Grammar.posint) :
    parseRegion (pixelText x y w h) =
      .ok (.coords, (digitsVal x : ℚ), (digitsVal y : ℚ), (digitsVal w : ℚ), (digitsVal h : ℚ)) := by
  obtain ⟨c, t, rfl, hc⟩ := Grammar.begins_posint x hx
  have hl : ∀ a : Char, a.isDigit = false → c ≠ a := by
    rintro a ha rfl
    rw [ha] at hc
    cases hc
  have hp : (pixelText (c :: t) y w h).dropPrefix? (txt "pct:") = none :=
    dropPrefix?_cons_of_ne (txt "ct:") _ (hl 'p' (by decide))
  have hsp : (pixelText (c :: t) y w h).splitOn ',' = [c :: t, y, w, h] := by
    rw [pixelText, List.splitOn_append_cons_self_of_not_mem (comma_not_mem_posint hx),
      List.splitOn_append_cons_self_of_not_mem (comma_not_mem_posint hy),
      List.splitOn_append_cons_self_of_not_mem (comma_not_mem_posint hw),
      List.splitOn_eq_singleton (comma_not_mem_posint hh)]
  have hf : pixelText (c :: t) y w h ≠ txt "full" := fun heq => hl 'f' (by decide) (List.cons.inj heq).1
  have hs : pixelText (c :: t) y w h ≠ txt "square" := fun heq => hl 's' (by decide) (List.cons.inj heq).1
  unfold parseRegion
  rw [if_neg hf, if_neg hs, hp]
  dsimp only
  rw [hsp]
  simp only [parseF32_of_posint hx, parseF32_of_posint hy, parseF32_of_posint hw, parseF32_of_posint hh]

/-- Nothing is zero, and no side above the cap. -/
inductive SizeParts.Parsed : SizeParts → Prop where
  | full (upscaling : Bool) : Parsed ⟨.full, upscaling, 0, 0, 0, 0⟩
  | percents (upscaling : Bool) {p : ℚ} (hp : 0 < p) : Parsed ⟨.percents, upscaling, p, 0, 0, 0⟩
  | reduce (upscaling : Bool) {n : ℤ} (hn : 0 ≤ n) : Parsed ⟨.reduce, upscaling, 0, n, 0, 0⟩
  | pixelsX (upscaling : Bool) {nx : ℕ} (hx : 0 < nx) (hle : nx ≤ limitdim) :
    Parsed ⟨.pixelsX, upscaling, 0, 0, nx, 0⟩
  | pixelsY (upscaling : Bool) {ny : ℕ} (hy : 0 < ny) (hle : ny ≤ limitdim) :
    Parsed ⟨.pixelsY, upscaling, 0, 0, 0, ny⟩
  | pair (upscaling exclamation : Bool) {nx ny : ℕ} (hx : 0 < nx) (hxle : nx ≤ limitdim) (hy : 0 < ny)
      (hyle : ny ≤ limitdim) : Parsed ⟨if exclamation then .maxdim else .pixelsXy, upscaling, 0, 0, nx, ny⟩

theorem cap_pos {n : ℕ} (h : n ≠ 0) : 0 < min n limitdim := lt_min (Nat.pos_of_ne_zero h) (by decide)

variable {p : SizeParts}

theorem parseSizePair_parsed {upscaling exclamation : Bool}
    (h : parseSizePair s upscaling exclamation width height = .ok p) : p.Parsed := by
  unfold parseSizePair at h
  simp only [bind, Except.bind, pure, Except.pure, throw, throwThe, MonadExceptOf.throw] at h
  split at h
  · split at h
    · cases h
    · split at h
      · cases h
      · split at h
        · cases h
        · next hz =>
          cases h
          exact .pixelsY _ (cap_pos hz) (min_le_right _ _)
  · split at h
    · split at h
      · cases h
      · split at h
        · cases h
        · next hz =>
          cases h
          exact .pixelsX _ (cap_pos hz) (min_le_right _ _)
    · split at h
      · cases h
      · split at h
        · cases h
        · split at h
          · cases h
          · next hz =>
            cases h
            obtain ⟨hx, hy⟩ := not_or.mp hz
            exact .pair _ _ (cap_pos hx) (min_le_right _ _) (cap_pos hy) (min_le_right _ _)

theorem parseSize_parsed (h : parseSize s = .ok p) : p.Parsed := by
  unfold parseSize at h
  dsimp only at h
  split at h
  · cases h
    exact .full _
  · split at h
    · split at h
      · cases h
      · split at h
        · cases h
        · next pct _ =>
          cases h
          apply SizeParts.Parsed.percents
          split
          · exact one_pos
          · next hl => exact lt_trans (by norm_num) (not_le.mp hl)
    · split at h
      · split at h
        · cases h
        · split at h
          · cases h
          · cases h
            exact .reduce _ (le_max_right _ _)
      · split at h
        · exact parseSizePair_parsed h
        · cases h

theorem parseSize_le (h : parseSize s = .ok p) : p.nx ≤ limitdim ∧ p.ny ≤ limitdim := by
  cases parseSize_parsed h with
  | full | percents | reduce => exact ⟨Nat.zero_le _, Nat.zero_le _⟩
  | pixelsX _ _ hle => exact ⟨hle, Nat.zero_le _⟩
  | pixelsY _ _ hle => exact ⟨Nat.zero_le _, hle⟩
  | pair _ _ _ hx _ hy => exact ⟨hx, hy⟩

end Sipi.Iiif
