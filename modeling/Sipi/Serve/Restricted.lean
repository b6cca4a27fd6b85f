import Sipi.Geometry.Readers

/-!
# Restricted access

A preflight script may answer `restrict` with a size.

## Honest scope

`decodeRestricted` has the steps that look at geometry. A `HEAD` request, a source file that is sent as it is, a
cache hit, a refused decode and a client that has gone do not reach the reader.
-/

namespace Sipi.Serve

open Sipi.Iiif Sipi.Geometry Sipi.Theory

/-- What `SipiSize(std::string)` throws. -/
inductive SizeStringError where
  | exclamation (s : Str)
  | noComma (s : Str)
  | noSides (s : Str)
  | heightZero
  | widthZero
  | sideZero (s : Str)
  | number (s : Str)
  | outOfRange
  deriving DecidableEq

/-- The text of an error. -/
def SizeStringError.message : SizeStringError → Option Str
  | .exclamation s => some (txt "Invalid IIIF size parameter: \"!" ++ s ++ txt "\": \"!\" not allowed here!")
  | .noComma s => some (txt "Could not parse IIIF size parameter: \"" ++ s ++ txt "\"")
  | .noSides s => some (txt "Could not parse IIIF size parameter: \"" ++ s ++ txt "\" ")
  | .heightZero => some (txt "IIIF height cannot be zero")
  | .widthZero => some (txt "IIIF width cannot be zero")
  | .sideZero s => some (txt "IIIF size would result in a width or height of zero: " ++ s)
  | .number s => some (txt "Could not parse IIIF size parameter: " ++ s)
  | .outOfRange => none

/-- `parse_int`, up to the largest `size_t`. -/
def parseInt (s v : Str) : Except SizeStringError ℕ :=
  match parseDigits v with
  | some n => .ok (min n (2 ^ 64 - 1))
  | none => .error (.number s)

/-- `parse_float`. -/
def parseFloat (s v : Str) : Except SizeStringError ℚ :=
  match parseF32 v with
  | some q => .ok q
  | none => .error (.number s)

/-- `substr(4)`. -/
def substr4 (s : Str) : Except SizeStringError Str :=
  if 4 ≤ s.length then .ok (s.drop 4) else .error .outOfRange

/-- Refuse a `!`. -/
def refuseExclamation (s : Str) (exclamation : Bool) : Except SizeStringError Unit :=
  if exclamation then .error (.exclamation s) else .ok ()

/-- A side that is not zero, cut to `limitdim`. -/
def parseSide (s v : Str) (zero : SizeStringError) : Except SizeStringError ℕ := do
  let n ← parseInt s v
  if n = 0 then .error zero else .ok (min n limitdim)

/-- The `w,h` forms. -/
def sidesOfString (s : Str) (upscaling exclamation : Bool) (width height : Str) : Except SizeStringError SizeParts :=
  if width = [] ∧ height = [] then .error (.noSides s)
  else if width = [] then do
    refuseExclamation s exclamation
    let ny ← parseSide s height .heightZero
    return ⟨.pixelsY, upscaling, 0, 0, 0, ny⟩
  else if height = [] then do
    refuseExclamation s exclamation
    let nx ← parseSide s width .widthZero
    return ⟨.pixelsX, upscaling, 0, 0, nx, 0⟩
  else do
    -- both numbers are read before either is looked at
    let nx ← parseInt s width
    let ny ← parseInt s height
    if nx = 0 ∨ ny = 0 then .error (.sideZero s)
    else .ok ⟨if exclamation then .maxdim else .pixelsXy, upscaling, 0, 0, min nx limitdim, min ny limitdim⟩

/-- `SipiSize(std::string)`. -/
def sizeOfString (s : Str) : Except SizeStringError SizeParts :=
  let upscaling := (s.dropPrefix? ['^']).isSome
  let rest := (s.dropPrefix? ['^']).getD s
  let exclamation := (rest.dropPrefix? ['!']).isSome
  let rest := (rest.dropPrefix? ['!']).getD rest
  if rest = [] ∨ rest = txt "max" then .ok ⟨.full, upscaling, 0, 0, 0, 0⟩
  else if txt "pct" <:+: rest then do
    refuseExclamation rest exclamation
    let percent ← parseFloat rest (← substr4 rest)
    return ⟨.percents, upscaling, if percent ≤ 1 / 10 ^ 12 then 1 else percent, 0, 0, 0⟩
  else if txt "red" <:+: rest then do
    refuseExclamation rest exclamation
    let n ← parseInt rest (← substr4 rest)
    return ⟨.reduce, upscaling, 0, max (toInt n) 0, 0, 0⟩
  else if ',' ∈ rest then
    sidesOfString rest upscaling exclamation (rest.takeWhile (· ≠ ',')) (rest.dropWhile (· ≠ ',')).tail
  else .error (.noComma rest)

/-- `SipiSize::undefined`, true of `max` and `red:n` too. -/
def Undefined (s : SizeParts) : Prop := s.nx = 0 ∧ s.ny = 0 ∧ s.percent = 0

instance (s : SizeParts) : Decidable (Undefined s) := inferInstanceAs (Decidable (_ ∧ _ ∧ _))

/-- `operator>`: wider or higher. -/
def Exceeds (a b : Resolved) : Prop := b.w < a.w ∨ b.h < a.h

instance (a b : Resolved) : Decidable (Exceeds a b) := inferInstanceAs (Decidable (_ ∨ _))

/-- The restricting size, or the one asked for. -/
def effectiveSize (full : Dims) (size restricted : SizeParts) : Except SizeError SizeParts := do
  let asked ← getSize (some 0) size full
  let bound ← getSize (some 0) restricted full
  return if ¬ Undefined restricted ∧ Exceeds asked bound then restricted else size

/-- Why no image is left. -/
inductive RestrictedError where
  | size (e : SizeError)
  | canonical (e : ReadError)
  | decodeDims (e : ReadError)
  | read (e : ReadError)
  deriving DecidableEq

/-- The geometry of `build_image_response`. -/
def decodeRestricted (full : Dims) (source : Source) (region : Region) (size restricted : SizeParts) :
    Except RestrictedError Dims := do
  let effective ← (effectiveSize full size restricted).mapError .size
  let _ ← (cropFound region full).mapError .canonical
  let _ ← (computeDecodeDims full source.clevels region effective).mapError .decodeDims
  (read full source region effective).mapError .read

theorem parseSide_pos {s v : Str} {zero : SizeStringError} {n : ℕ} (h : parseSide s v zero = .ok n) : 0 < n := by
  obtain ⟨m, _, h⟩ := bind_eq_ok.mp h
  split at h
  · cases h
  · next hz =>
    cases h
    exact cap_pos hz

theorem sidesOfString_valid {s width height : Str} {upscaling exclamation : Bool} {p : SizeParts}
    (h : sidesOfString s upscaling exclamation width height = .ok p) : SizeParts.Valid p := by
  unfold sidesOfString at h
  split at h
  · cases h
  · split at h
    · obtain ⟨_, _, h⟩ := bind_eq_ok.mp h
      obtain ⟨ny, hny, h⟩ := bind_eq_ok.mp h
      cases h
      exact parseSide_pos hny
    · split at h
      · obtain ⟨_, _, h⟩ := bind_eq_ok.mp h
        obtain ⟨nx, hnx, h⟩ := bind_eq_ok.mp h
        cases h
        exact parseSide_pos hnx
      · obtain ⟨nx, _, h⟩ := bind_eq_ok.mp h
        obtain ⟨ny, _, h⟩ := bind_eq_ok.mp h
        split at h
        · cases h
        · next hz =>
          cases h
          obtain ⟨hx, hy⟩ := not_or.mp hz
          cases exclamation with
          | false => exact ⟨cap_pos hx, cap_pos hy⟩
          | true => exact ⟨⟨cap_pos hx, cap_pos hy⟩, min_le_right _ _, min_le_right _ _⟩

theorem sizeOfString_valid {s : Str} {p : SizeParts} (h : sizeOfString s = .ok p) :
    Undefined p ∨ SizeParts.Valid p := by
  unfold sizeOfString at h
  dsimp only at h
  split at h
  · cases h
    exact Or.inr trivial
  · split at h
    · obtain ⟨_, _, h⟩ := bind_eq_ok.mp h
      obtain ⟨_, _, h⟩ := bind_eq_ok.mp h
      obtain ⟨pct, _, h⟩ := bind_eq_ok.mp h
      cases h
      right
      show (0 : ℚ) < if pct ≤ 1 / 10 ^ 12 then 1 else pct
      split
      · norm_num
      · next hl => exact lt_trans (by norm_num) (not_le.mp hl)
    · split at h
      · obtain ⟨_, _, h⟩ := bind_eq_ok.mp h
        obtain ⟨_, _, h⟩ := bind_eq_ok.mp h
        obtain ⟨n, _, h⟩ := bind_eq_ok.mp h
        cases h
        exact Or.inl ⟨rfl, rfl, rfl⟩
      · split at h
        · exact Or.inr (sidesOfString_valid h)
        · cases h

section
variable {full : Dims} {size restricted effective : SizeParts} {bound : Resolved}

theorem effectiveSize_valid (hv : SizeParts.Valid size) (hr : Undefined restricted ∨ SizeParts.Valid restricted)
    (h : effectiveSize full size restricted = .ok effective) : SizeParts.Valid effective := by
  obtain ⟨_, _, h⟩ := bind_eq_ok.mp h
  obtain ⟨_, _, h⟩ := bind_eq_ok.mp h
  cases h
  split
  · next hu => exact hr.resolve_left hu.1
  · exact hv

theorem effective_le (hv : SizeParts.Valid size) (hr : Undefined restricted ∨ SizeParts.Valid restricted)
    (hd : ¬ Undefined restricted) (hb : getSize (some 0) restricted full = .ok bound)
    (h : effectiveSize full size restricted = .ok effective) : target (some 0) effective full ≤ bound.sides := by
  obtain ⟨asked, ha, h⟩ := bind_eq_ok.mp h
  obtain ⟨bound', hb', h⟩ := bind_eq_ok.mp h
  cases hb.symm.trans hb'
  cases h
  split
  · rw [← sides_of_getSize (hr.resolve_left hd) hb]
  · next hn =>
    rw [← sides_of_getSize hv ha]
    have hwt : ¬ Exceeds asked bound := fun he => hn ⟨hd, he⟩
    obtain ⟨hw, hh⟩ := not_or.mp hwt
    exact ⟨not_lt.mp hw, not_lt.mp hh⟩

end

/-- Sizes that keep the aspect ratio. -/
def Proportional (s : SizeParts) : Prop := s.kind = .pixelsX ∨ s.kind = .pixelsY ∨ s.kind = .maxdim

instance (s : SizeParts) : Decidable (Proportional s) := inferInstanceAs (Decidable (_ ∨ _ ∨ _))

theorem target_mono (cap : Option ℕ) {s : SizeParts} (hv : SizeParts.Valid s) (hkn : ¬ Proportional s)
    {d e : Dims} (hwt : d.Within e) : target cap s d ≤ target cap s e := by
  obtain ⟨hw, hh⟩ := hwt
  have hwq : (d.w : ℚ) ≤ e.w := by exact_mod_cast hw
  have hhq : (d.h : ℚ) ≤ e.h := by exact_mod_cast hh
  unfold target
  unfold Proportional at hkn
  unfold SizeParts.Valid at hv
  cases hk : s.kind <;> simp only [hk] at hv hkn ⊢
  case full => exact ⟨hw, hh⟩
  case pixelsXy => exact le_rfl
  case percents =>
    refine ⟨Nat.ceil_mono ?_, Nat.ceil_mono ?_⟩
    · gcongr
    · gcongr
  all_goals exact absurd hkn (by simp)

/-! ### When the image is within the restricting size -/

/-- The other side of `w,` or `,h` is within a bound. -/
def OtherWithin (cap : Option ℕ) (side n other bound : ℕ) : Prop :=
  if Hits side n ∧ Allows cap (level side n) then other ≤ 2 ^ level side n * bound else other * n ≤ side * bound

/-- A size asks no more than a bound. -/
def AsksWithin (cap : Option ℕ) (s : SizeParts) (d : Dims) (bound : ℕ × ℕ) : Prop :=
  match s.kind with
  | .full => d.w ≤ bound.1 ∧ d.h ≤ bound.2
  | .pixelsXy => s.nx ≤ bound.1 ∧ s.ny ≤ bound.2
  | .pixelsX => s.nx ≤ bound.1 ∧ OtherWithin cap d.w s.nx d.h bound.2
  | .pixelsY => OtherWithin cap d.h s.ny d.w bound.1 ∧ s.ny ≤ bound.2
  | .percents => d.w * s.percent ≤ 100 * bound.1 ∧ d.h * s.percent ≤ 100 * bound.2
  | .maxdim =>
    if s.nx * d.h < s.ny * d.w then s.nx ≤ bound.1 ∧ d.h * s.nx ≤ d.w * bound.2
    else d.w * s.ny ≤ d.h * bound.1 ∧ s.ny ≤ bound.2
  | _ => True

theorem otherOf_le_iff (cap : Option ℕ) {side : ℕ} (hs : 0 < side) (n other bound : ℕ) :
    otherOf cap side n other ≤ bound ↔ OtherWithin cap side n other bound := by
  unfold otherOf OtherWithin
  split
  · exact ceilDiv_two_pow_le_iff _ _ _
  · exact ceilDiv_le_iff_le_mul hs

theorem boxSides_le_iff (nx ny : ℕ) (d : Dims) (bound : ℕ × ℕ) :
    boxSides nx ny d ≤ bound ↔ if nx * d.h < ny * d.w then nx ≤ bound.1 ∧ d.h * nx ≤ d.w * bound.2
      else d.w * ny ≤ d.h * bound.1 ∧ ny ≤ bound.2 := by
  rw [boxSides_eq]
  split
  · exact and_congr_right fun _ => ceilDiv_le_iff_le_mul d.w_pos
  · exact and_congr_left fun _ => ceilDiv_le_iff_le_mul d.h_pos

theorem target_le_iff (cap : Option ℕ) {s : SizeParts} (hv : SizeParts.Valid s) (d : Dims) (bound : ℕ × ℕ) :
    target cap s d ≤ bound ↔ AsksWithin cap s d bound := by
  have hp : ∀ n b : ℕ, ⌈n * s.percent / 100⌉₊ ≤ b ↔ n * s.percent ≤ 100 * b := by
    intro n b
    rw [Nat.ceil_le, div_le_iff₀ (by norm_num), mul_comm (b : ℚ)]
  unfold target AsksWithin
  unfold SizeParts.Valid at hv
  cases hk : s.kind <;> simp only [hk] at hv ⊢
  case full => rfl
  case pixelsXy => rfl
  case pixelsX => exact and_congr_right fun _ => otherOf_le_iff cap d.w_pos _ _ _
  case pixelsY => exact and_congr_left fun _ => otherOf_le_iff cap d.h_pos _ _ _
  case percents => exact and_congr (hp _ _) (hp _ _)
  case maxdim => exact boxSides_le_iff _ _ d bound

/-- The restricting size takes the place of one that asks for more of the whole image. -/
def Overrules (full : Dims) (size restricted : SizeParts) (bound : ℕ × ℕ) : Prop :=
  ¬ Undefined restricted ∧ ¬ AsksWithin (some 0) size full bound

/-- The comparison on the whole image does not settle it: the restricting size is ignored, or the size keeps the
aspect ratio of a part of the image. -/
def Unsettled (full : Dims) (size restricted : SizeParts) (d : Dims) : Prop :=
  Undefined restricted ∨ d ≠ full ∧ Proportional size

/-- What the size in force has to meet: if it is scaled to and the comparison does not settle it, its numbers are
within the bound; if it is not, the crop is, on the level of the pyramid or halved. -/
def EndsWithin (full : Dims) (source : Source) (region : Region) (size restricted : SizeParts) (roi : Dims)
    (bound : ℕ × ℕ) : Prop :=
  if size.kind = .full then Undefined restricted → roi.w ≤ bound.1 ∧ roi.h ≤ bound.2
  else match source with
    | .tiff levels _ => ∀ rect, levelCrop full levels region size = .ok rect →
        (Broad rect.dims none size full → Undefined restricted → AsksWithin none size full bound) ∧
        (¬ Broad rect.dims none size full → rect.dims.w ≤ bound.1 ∧ rect.dims.h ≤ bound.2)
    | _ =>
      let cap := source.maxReduce region
      let k := source.halvings region size roi
      (Broad roi cap size roi ∧ source.Told size roi → Unsettled full size restricted roi →
        AsksWithin cap size roi bound) ∧
      (¬ (Broad roi cap size roi ∧ source.Told size roi) → roi.w ≤ 2 ^ k * bound.1 ∧ roi.h ≤ 2 ^ k * bound.2)

/-- What a request has to meet for its image to be within the restricting size. -/
def Restrains (full : Dims) (source : Source) (region : Region) (size restricted : SizeParts) (roi : Dims)
    (bound : ℕ × ℕ) : Prop :=
  (Overrules full size restricted bound → EndsWithin full source region restricted restricted roi bound) ∧
    (¬ Overrules full size restricted bound → EndsWithin full source region size restricted roi bound)

section
variable {full : Dims} {region : Region} {size restricted effective : SizeParts} {rect : Rect} {bound : Resolved}

theorem le_of_settled (cap : Option ℕ) (hv : SizeParts.Valid size)
    (hr : Undefined restricted ∨ SizeParts.Valid restricted) (hb : getSize (some 0) restricted full = .ok bound)
    (he : effectiveSize full size restricted = .ok effective) {d : Dims} (hw : d.Within full)
    (hs : ¬ Unsettled full effective restricted d) : target cap effective d ≤ bound.sides := by
  obtain ⟨hd, hk⟩ := not_or.mp hs
  have hve := effectiveSize_valid hv hr he
  refine (target_le_zero cap hve d).trans (le_trans ?_ (effective_le hv hr hd hb he))
  by_cases hdf : d = full
  · rw [hdf]
  · exact target_mono (some 0) hve (fun hp => hk ⟨hdf, hp⟩) hw

theorem target_le_iff_asked (cap : Option ℕ) (hv : SizeParts.Valid size)
    (hr : Undefined restricted ∨ SizeParts.Valid restricted) (hb : getSize (some 0) restricted full = .ok bound)
    (he : effectiveSize full size restricted = .ok effective) {d : Dims} (hw : d.Within full) :
    target cap effective d ≤ bound.sides ↔
      (Unsettled full effective restricted d → AsksWithin cap effective d bound.sides) := by
  rw [← target_le_iff cap (effectiveSize_valid hv hr he)]
  refine ⟨fun h _ => h, fun h => ?_⟩
  by_cases hun : Unsettled full effective restricted d
  · exact h hun
  · exact le_of_settled cap hv hr hb he hw hun

theorem effectiveSize_cases (hv : SizeParts.Valid size) (hb : getSize (some 0) restricted full = .ok bound)
    (h : effectiveSize full size restricted = .ok effective) :
    Overrules full size restricted bound.sides ∧ effective = restricted ∨
      ¬ Overrules full size restricted bound.sides ∧ effective = size := by
  obtain ⟨asked, ha, h⟩ := bind_eq_ok.mp h
  obtain ⟨bound', hb', h⟩ := bind_eq_ok.mp h
  cases hb.symm.trans hb'
  cases h
  have hex : Exceeds asked bound ↔ ¬ AsksWithin (some 0) size full bound.sides := by
    rw [← target_le_iff (some 0) hv, ← sides_of_getSize hv ha, Exceeds, ← not_le, ← not_le, ← not_and_or]
    rfl
  rw [Overrules, ← hex]
  split
  · next ho => exact Or.inl ⟨ho, rfl⟩
  · next ho => exact Or.inr ⟨ho, rfl⟩

theorem read_of_decodeRestricted {source : Source} {d : Dims} (hve : SizeParts.Valid effective)
    (hef : effectiveSize full size restricted = .ok effective) (hr : cropCoords region 1 full = .ok rect)
    (hd : decodeRestricted full source region size restricted = .ok d) :
    Leaves full source region effective rect.dims d.sides := by
  obtain ⟨e, he, hd⟩ := bind_eq_ok.mp hd
  obtain rfl := Except.ok.inj (hef.symm.trans (mapError_eq_ok.mp he))
  obtain ⟨_, _, hd⟩ := bind_eq_ok.mp hd
  obtain ⟨dims, hdm, hd⟩ := bind_eq_ok.mp hd
  obtain ⟨rect', hr', ha, _⟩ := out_of_computeDecodeDims hve (mapError_eq_ok.mp hdm)
  cases hr.symm.trans hr'
  exact (read_iff_leaves hve hr ha).mp (mapError_eq_ok.mp hd)

theorem endsAt_le_iff {scaled : Prop} {asked t bound : ℕ × ℕ} {buffer : Dims} (h : EndsAt scaled asked buffer t) :
    t ≤ bound ↔ (scaled → asked ≤ bound) ∧ (¬ scaled → buffer.sides ≤ bound) := by
  rcases h with ⟨hs, rfl⟩ | ⟨hs, rfl⟩
  · exact ⟨fun ht => ⟨fun _ => ht, fun hn => absurd hs hn⟩, fun ht => ht.1 hs⟩
  · exact ⟨fun ht => ⟨fun hp => absurd hp hs, fun _ => ht⟩, fun ht => ht.2 hs⟩

theorem endsWithin_iff {source : Source} {d : Dims} (hv : SizeParts.Valid size)
    (hr : Undefined restricted ∨ SizeParts.Valid restricted) (hbound : getSize (some 0) restricted full = .ok bound)
    (heff : effectiveSize full size restricted = .ok effective) (hrect : cropCoords region 1 full = .ok rect)
    (hd : decodeRestricted full source region size restricted = .ok d) :
    d.sides ≤ bound.sides ↔ EndsWithin full source region effective restricted rect.dims bound.sides := by
  have hve := effectiveSize_valid hv hr heff
  have hl := read_of_decodeRestricted hve heff hrect hd
  have hin := crop_within hrect
  unfold Leaves at hl
  unfold EndsWithin
  by_cases hk : effective.kind = .full
  · rw [if_pos hk] at hl ⊢
    rw [← hl]
    refine ⟨fun h _ => h, fun h => ?_⟩
    by_cases hu : Undefined restricted
    · exact h hu
    · rw [← target_full hk none]
      exact le_of_settled none hv hr hbound heff hin fun hun => hun.elim hu fun hp => by simp [Proportional, hk] at hp
  rw [if_neg hk] at hl ⊢
  have hask : ∀ cap d, d.Within full → (target cap effective d ≤ bound.sides ↔
      (Unsettled full effective restricted d → AsksWithin cap effective d bound.sides)) :=
    fun cap d => target_le_iff_asked cap hv hr hbound heff
  have hhalved : ∀ k, (rect.dims.reduced k).sides ≤ bound.sides ↔
      rect.dims.w ≤ 2 ^ k * bound.sides.1 ∧ rect.dims.h ≤ 2 ^ k * bound.sides.2 := fun k =>
    and_congr (ceilDiv_two_pow_le_iff _ _ _) (ceilDiv_two_pow_le_iff _ _ _)
  cases source with
  | tiff levels clevels =>
    obtain ⟨-, crop, hc, he⟩ := hl
    have hu : Unsettled full effective restricted full ↔ Undefined restricted := by simp [Unsettled]
    rw [endsAt_le_iff he, hask none full ⟨le_rfl, le_rfl⟩, hu]
    constructor
    · intro h crop' hc'
      cases hc.symm.trans hc'
      exact h
    · exact fun h => h crop hc
  | jp2 levels clevels => rw [endsAt_le_iff hl.2, hask _ _ hin, hhalved]
  | jpeg => rw [endsAt_le_iff hl.2, hask _ _ hin, hhalved]
  | png => rw [endsAt_le_iff hl.2, hask _ _ hin, hhalved]

/-- **When the image is within the restricting size.** -/
theorem restricted_iff {source : Source} {s : Str} {d : Dims} (hv : SizeParts.Valid size)
    (hs : sizeOfString s = .ok restricted) (hbound : getSize (some 0) restricted full = .ok bound)
    (hrect : cropCoords region 1 full = .ok rect)
    (hd : decodeRestricted full source region size restricted = .ok d) :
    d.sides ≤ bound.sides ↔ Restrains full source region size restricted rect.dims bound.sides := by
  obtain ⟨effective, he, -⟩ := bind_eq_ok.mp hd
  have heff := mapError_eq_ok.mp he
  rw [endsWithin_iff hv (sizeOfString_valid hs) hbound heff hrect hd, Restrains]
  rcases effectiveSize_cases hv hbound heff with ⟨ho, rfl⟩ | ⟨ho, rfl⟩
  · exact ⟨fun h => ⟨fun _ => h, fun hn => absurd ho hn⟩, fun h => h.1 ho⟩
  · exact ⟨fun h => ⟨fun hp => absurd hp ho, fun _ => h⟩, fun h => h.2 ho⟩

end

/-- An image of 500 by 1000 pixels. -/
def portrait : Dims := .mk 500 1000

/-- A strip of 100 columns. -/
def strip : Region := ⟨.coords, 0, 0, 100, 1000, by norm_num⟩

/-- `64,`. -/
def sixtyFourWide : SizeParts := ⟨.pixelsX, false, 0, 0, 64, 0⟩

/-- `!128,128`. -/
def within128 : SizeParts := ⟨.maxdim, false, 0, 0, 128, 128⟩

/-- `^!700,700`. -/
def within700 : SizeParts := ⟨.maxdim, true, 0, 0, 700, 700⟩

/-- The whole image. -/
def wholeImage : Region := ⟨.full, 0, 0, 0, 0, by norm_num⟩

theorem restricted_strip :
    decodeRestricted portrait .png strip sixtyFourWide within700 = .ok (.mk 64 640) ∧
      getSize (some 0) within700 portrait = .ok ⟨350, 700, 0, false⟩ ∧ (Dims.mk 64 640).sides ≤ (350, 700) := by
  have hv : SizeParts.Valid sixtyFourWide := by
    show 0 < 64
    decide
  have hs : sizeOfString (txt "^!700,700") = .ok within700 := by decide +kernel
  have hb : getSize (some 0) within700 portrait = .ok ⟨350, 700, 0, false⟩ := by decide +kernel
  have hrc : cropCoords strip 1 portrait = .ok ⟨0, 0, .mk 100 1000⟩ := by decide +kernel
  have hd : decodeRestricted portrait .png strip sixtyFourWide within700 = .ok (.mk 64 640) := by decide +kernel
  -- of the whole image `64,` asks for 64 by 128
  have hno : ¬ Overrules portrait sixtyFourWide within700 (350, 700) := by
    rintro ⟨-, ho⟩
    refine ho ?_
    show 64 ≤ 350 ∧ OtherWithin (some 0) 500 64 1000 700
    unfold OtherWithin
    decide +kernel
  -- the comparison does not settle a strip, but its share of the height is low enough
  have hr : EndsWithin portrait .png strip sixtyFourWide within700 (.mk 100 1000) (350, 700) := by
    have hsc : Broad (.mk 100 1000) none sixtyFourWide (.mk 100 1000) :=
      (broad_iff hv _ _ _).mpr (by decide +kernel)
    refine ⟨fun _ _ => ?_, fun hn => absurd ⟨hsc, trivial⟩ hn⟩
    show 64 ≤ 350 ∧ OtherWithin none 100 64 1000 700
    unfold OtherWithin
    decide +kernel
  exact ⟨hd, hb, (restricted_iff hv hs hb hrc hd).mpr ⟨fun ho => absurd ho hno, fun _ => hr⟩⟩

theorem restriction_passed_by :
    sizeOfString (txt "!128,128") = .ok within128 ∧
      (getSize (some 0) within128 portrait).map Resolved.sides = .ok (64, 128) ∧
      (decodeRestricted portrait .png strip sixtyFourWide within128).toOption =
        some (.mk 64 640) ∧
      sizeOfString (txt "red:2") = .ok ⟨.reduce, false, 0, 2, 0, 0⟩ ∧
      (getSize (some 0) ⟨.reduce, false, 0, 2, 0, 0⟩ portrait).map Resolved.sides = .ok (125, 250) ∧
      (decodeRestricted portrait .png wholeImage ⟨.pixelsXy, false, 0, 0, 500, 1000⟩
        ⟨.reduce, false, 0, 2, 0, 0⟩).toOption = some (.mk 500 1000) := by
  decide +kernel

end Sipi.Serve
