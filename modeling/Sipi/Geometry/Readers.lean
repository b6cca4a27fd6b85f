import Sipi.Geometry.Redonly
import Sipi.Geometry.Region

/-!
# The readers

`formats/SipiIO{Tiff,J2k,Jpeg,Png}.cpp`: each reader decodes a buffer and then scales it in its own way.

## Honest scope

The codecs deliver the region and the level they are asked for, rounding up. `read_shape` may take the number of
levels from metadata embedded in the file, so for JPEG 2000 it need not be that of the codestream; the sides it
reports are those of the image.
-/

namespace Sipi.Geometry

open Sipi.Iiif Sipi.Theory

/-- A source: its format and its resolutions. -/
inductive Source where
  | tiff (levels : List Dims) (clevels : ℤ)
  | jp2 (levels : ℕ) (clevels : ℤ)
  | jpeg
  | png

/-- What `read_shape` says of the levels. -/
def Source.clevels : Source → ℤ
  | .tiff _ clevels => clevels
  | .jp2 _ clevels => clevels
  | .jpeg | .png => 0

/-- What a reader has before its last step. -/
structure Decoded where
  buffer : Dims
  scaledTo : Option (ℕ × ℕ)

/-- Why a reader fails. -/
inductive ReadError where
  | crop (e : CropError)
  | size (e : SizeError)
  deriving DecidableEq

/-- `crop_coords`, in a reader. -/
def cropTo (region : Region) (reduce : ℕ) (d : Dims) : Except ReadError Dims :=
  match cropCoords region reduce d with
  | .ok rect => .ok rect.dims
  | .error e => .error (.crop e)

/-- The crop of the whole image, if there is a region. -/
def cropWhole (region : Region) (full : Dims) : Except ReadError Dims :=
  if region.kind = .full then .ok full else cropTo region 1 full

/-- `get_size`, in a reader. -/
def resolve (cap : Option ℕ) (size : SizeParts) (d : Dims) : Except ReadError Resolved :=
  match getSize cap size d with
  | .ok r => .ok r
  | .error e => .error (.size e)

/-- The size to scale to, unless it is the full one. -/
def residual (size : SizeParts) (r : Resolved) : Option (ℕ × ℕ) :=
  if size.kind = .full then none else some r.sides

/-- The ratio of a level, rounded. -/
def ratio (full level : Dims) : ℕ := (toSize (lround (full.w / level.w))) % 2 ^ 32

/-- The loop of `select_pyramid_level`. -/
def selectFrom (full : Dims) (divisor : ℕ) : Dims → List Dims → Dims
  | chosen, [] => chosen
  | chosen, l :: ls => if ratio full l ≤ divisor then selectFrom full divisor l ls else chosen

/-- `select_pyramid_level`. -/
def selectPyramidLevel (full : Dims) (levels : List Dims) (reduceExp : ℕ) : Dims :=
  if reduceExp = 0 then full else selectFrom full (2 ^ min reduceExp 31) full (full :: levels)

/-- `SipiIOTiff::read`. -/
def decodeTiff (full : Dims) (levels : List Dims) (region : Region) (size : SizeParts) :
    Except ReadError Decoded := do
  let r ← resolve none size full
  let level := selectPyramidLevel full levels r.reduce
  let roi ← cropTo region (ratio full level) level
  return ⟨roi, residual size r⟩

/-- `SipiIOJ2k::read`, capped by the codestream. -/
def decodeJ2k (full : Dims) (levels : ℕ) (region : Region) (size : SizeParts) : Except ReadError Decoded := do
  let roi ← cropWhole region full
  if size.kind = .full then
    return ⟨roi, none⟩
  else
    let r ← resolve (some levels) size roi
    return ⟨roi.reduced r.reduce, if r.redonly then none else some r.sides⟩

/-- `SipiIOJpeg::read`. -/
def decodeJpeg (full : Dims) (region : Region) (size : SizeParts) : Except ReadError Decoded := do
  if region.kind = .full then
    if size.kind = .full then
      return ⟨full, none⟩
    else
      let r ← resolve (some 3) size full
      return ⟨full.reduced r.reduce, some r.sides⟩
  else
    let roi ← cropTo region 1 full
    let r ← resolve none size roi
    return ⟨roi, residual size r⟩

/-- `SipiIOPng::read`. -/
def decodePng (full : Dims) (region : Region) (size : SizeParts) : Except ReadError Decoded := do
  let roi ← cropWhole region full
  let r ← resolve none size roi
  return ⟨roi, residual size r⟩

/-- What a reader has before its last step. -/
def decode (full : Dims) (source : Source) (region : Region) (size : SizeParts) : Except ReadError Decoded :=
  match source with
  | .tiff levels _ => decodeTiff full levels region size
  | .jp2 levels _ => decodeJ2k full levels region size
  | .jpeg => decodeJpeg full region size
  | .png => decodePng full region size

/-- Both images have more than one row and column. -/
def Scalable (d : Dims) (t : ℕ × ℕ) : Prop := 1 < t.1 ∧ 1 < t.2 ∧ 1 < d.w ∧ 1 < d.h

instance (d : Dims) (t : ℕ × ℕ) : Decidable (Scalable d t) := inferInstanceAs (Decidable (_ ∧ _ ∧ _ ∧ _))

/-- Scaling; a side of one pixel is left alone. -/
def scale (t : ℕ × ℕ) (d : Dims) : Dims :=
  if h : Scalable d t then ⟨t.1, t.2, by obtain ⟨h₁, _⟩ := h; omega, by obtain ⟨_, h₂, _⟩ := h; omega⟩ else d

/-- The last step of a reader. -/
def Decoded.finish (p : Decoded) : Dims :=
  match p.scaledTo with
  | none => p.buffer
  | some t => scale t p.buffer

/-- `SipiImage::read`: the dimensions it leaves. -/
def read (full : Dims) (source : Source) (region : Region) (size : SizeParts) : Except ReadError Dims :=
  (decode full source region size).map Decoded.finish

/-! ### The prediction -/

/-- `DecodeDims`. -/
structure DecodeDims where
  region : Option Rect
  reduce : ℕ
  reduceOnly : Bool
  buffer : Dims
  out : Dims
  deriving DecidableEq

/-- The last step of `compute_decode_dims`. -/
def DecodeDims.ofResolved (rect : Option Rect) (roi : Dims) (r : Resolved) : DecodeDims :=
  let buffer := roi.reduced r.reduce
  ⟨rect, r.reduce, r.redonly, buffer, ⟨if r.w = 0 then buffer.w else r.w, if r.h = 0 then buffer.h else r.h,
    by split; exacts [buffer.w_pos, by omega], by split; exacts [buffer.h_pos, by omega]⟩⟩

/-- The region, if there is one. -/
def cropFound (region : Region) (full : Dims) : Except ReadError (Option Rect) :=
  if region.kind = .full then .ok none
  else match cropCoords region 1 full with
    | .ok rect => .ok (some rect)
    | .error e => .error (.crop e)

/-- The size resolved on the region. -/
def resolveFound (clevels : ℤ) (size : SizeParts) (roi : Dims) : Except ReadError Resolved :=
  if size.kind = .full then .ok ⟨0, 0, 0, true⟩ else resolve (some clevels.toNat) size roi

/-- `compute_decode_dims`. -/
def computeDecodeDims (full : Dims) (clevels : ℤ) (region : Region) (size : SizeParts) :
    Except ReadError DecodeDims := do
  let rect ← cropFound region full
  let roi := (rect.map Rect.dims).getD full
  let r ← resolveFound clevels size roi
  return .ofResolved rect roi r

/-- The sides of an image. -/
def Dims.sides (d : Dims) : ℕ × ℕ := (d.w, d.h)

variable {d : Dims}

theorem Dims.sides_inj {e : Dims} : d.sides = e.sides ↔ d = e := by
  rw [Dims.sides, Dims.sides, Prod.mk.injEq, Dims.ext_iff]

theorem Dims.reduced_zero (d : Dims) : d.reduced 0 = d := by
  ext <;> simp [Dims.reduced]

/-- The cap that `compute_decode_dims` sets. -/
def Source.predictedCap (source : Source) : Option ℕ := some source.clevels.toNat

variable {cap : Option ℕ} {size : SizeParts} {r : Resolved}

theorem resolve_eq_ok : resolve cap size d = .ok r ↔ getSize cap size d = .ok r := by
  unfold resolve
  cases getSize cap size d <;> simp

variable {region : Region} {full : Dims} {rect : Rect}

theorem cropWhole_eq_ok (h : cropCoords region 1 full = .ok rect) : cropWhole region full = .ok rect.dims := by
  unfold cropWhole
  split
  · next hk =>
    rw [crop_full hk] at h
    cases h
    rfl
  · rw [cropTo, h]

theorem crop_of_cropFound {found : Option Rect} (h : cropFound region full = .ok found) :
    cropCoords region 1 full = .ok (found.getD ⟨0, 0, full⟩) := by
  unfold cropFound at h
  split at h
  · next hk =>
    cases h
    exact crop_full hk 1 full
  · split at h
    · next rect hc =>
      cases h
      exact hc
    · cases h

theorem dims_getD (found : Option Rect) (full : Dims) :
    (found.map Rect.dims).getD full = (found.getD ⟨0, 0, full⟩).dims := by
  cases found <;> rfl

theorem cropTo_eq_ok_iff {reduce : ℕ} {e : Dims} :
    cropTo region reduce d = .ok e ↔ ∃ rect, cropCoords region reduce d = .ok rect ∧ rect.dims = e := by
  unfold cropTo
  cases cropCoords region reduce d <;> simp

theorem getSize_full (hk : size.kind = .full) (cap : Option ℕ) (d : Dims) :
    getSize cap size d = .ok ⟨d.w, d.h, 0, true⟩ := by
  rw [getSize, hk]

theorem target_full (hk : size.kind = .full) (cap : Option ℕ) (d : Dims) : target cap size d = d.sides := by
  rw [target, hk, Dims.sides]

theorem out_of_computeDecodeDims {clevels : ℤ} {dims : DecodeDims}
    (hv : SizeParts.Valid size) (h : computeDecodeDims full clevels region size = .ok dims) :
    ∃ rect, cropCoords region 1 full = .ok rect ∧ SizeParts.Accepted size rect.dims ∧
      dims.out.sides = target (some clevels.toNat) size rect.dims := by
  obtain ⟨found, hf, h⟩ := bind_eq_ok.mp h
  obtain ⟨r, hr, h⟩ := bind_eq_ok.mp h
  cases h
  refine ⟨_, crop_of_cropFound hf, ?_⟩
  rw [dims_getD] at hr ⊢
  set rect := found.getD ⟨0, 0, full⟩
  unfold resolveFound at hr
  split at hr
  · next hs =>
    cases hr
    refine ⟨Or.inr (by simp [hs]), ?_⟩
    show (rect.dims.reduced 0).sides = _
    rw [target_full hs, Dims.reduced_zero]
  · have hrs := resolve_eq_ok.mp hr
    obtain ⟨hw, hh⟩ := target_pos (some clevels.toNat) hv rect.dims
    rw [← sides_of_getSize hv hrs] at hw hh ⊢
    refine ⟨((getSize_ok_iff _ hv).mp ⟨r, hrs⟩).1, ?_⟩
    show ((if r.w = 0 then _ else r.w), (if r.h = 0 then _ else r.h)) = (r.w, r.h)
    rw [if_neg (show r.w ≠ 0 from hw.ne'), if_neg (show r.h ≠ 0 from hh.ne')]

/-! ### What a size asks of an image -/

/-- A number is rounded up to another. -/
def RoundsUpTo (q : ℚ) (n : ℕ) : Prop := q ≤ n ∧ n < q + 1

theorem roundsUpTo_iff {q : ℚ} (hq : 0 ≤ q) {n : ℕ} : RoundsUpTo q n ↔ ⌈q⌉₊ = n := by
  have hge : (n : ℚ) < q + 1 ↔ n ≤ ⌈q⌉₊ := by
    cases n with
    | zero => simp [add_pos_of_nonneg_of_pos hq]
    | succ m =>
      rw [Nat.succ_le_iff, Nat.lt_ceil]
      push_cast
      exact add_lt_add_iff_right 1
  rw [RoundsUpTo, hge, ← Nat.ceil_le]
  exact le_antisymm_iff.symm

/-- The other side of `w,` or `,h` is `o`: it is halved as this side is, if that hits the number within the cap, and
else has its share. -/
def OtherIs (cap : Option ℕ) (side n other o : ℕ) : Prop :=
  RoundsUpTo (if Hits side n ∧ Allows cap (level side n) then other / 2 ^ level side n else other * n / side) o

/-- A size asks an image for `w` columns and `h` rows, by its numbers. -/
def Asks (cap : Option ℕ) (s : SizeParts) (d : Dims) (w h : ℕ) : Prop :=
  match s.kind with
  | .full => d.w = w ∧ d.h = h
  | .pixelsXy => s.nx = w ∧ s.ny = h
  | .pixelsX => s.nx = w ∧ OtherIs cap d.w s.nx d.h h
  | .pixelsY => OtherIs cap d.h s.ny d.w w ∧ s.ny = h
  | .percents => RoundsUpTo (d.w * s.percent / 100) w ∧ RoundsUpTo (d.h * s.percent / 100) h
  | .maxdim =>
    if s.nx * d.h < s.ny * d.w then s.nx = w ∧ RoundsUpTo (d.h * s.nx / d.w) h
    else RoundsUpTo (d.w * s.ny / d.h) w ∧ s.ny = h
  | _ => False

theorem otherIs_iff (cap : Option ℕ) {side : ℕ} (hs : 0 < side) (n other o : ℕ) :
    OtherIs cap side n other o ↔ otherOf cap side n other = o := by
  unfold OtherIs otherOf
  split
  · rw [roundsUpTo_iff (by positivity), ← ceil_div_eq_ceilDiv other (by positivity)]
    push_cast
    rfl
  · rw [roundsUpTo_iff (by positivity), ← ceil_div_eq_ceilDiv (other * n) hs]
    push_cast
    rfl

theorem asks_iff {s : SizeParts} (hv : SizeParts.Valid s) (cap : Option ℕ) (d : Dims) {w h : ℕ} :
    Asks cap s d w h ↔ target cap s d = (w, h) := by
  unfold Asks target
  unfold SizeParts.Valid at hv
  rw [Prod.ext_iff]
  cases hk : s.kind <;> simp only [hk] at hv ⊢
  case pixelsX => rw [otherIs_iff cap d.w_pos]
  case pixelsY => rw [otherIs_iff cap d.h_pos]
  case percents => rw [roundsUpTo_iff (by positivity), roundsUpTo_iff (by positivity)]
  case maxdim =>
    rw [boxSides_eq]
    split
    · rw [roundsUpTo_iff (by positivity), ← ceil_div_eq_ceilDiv _ d.w_pos]
      push_cast
      rfl
    · rw [roundsUpTo_iff (by positivity), ← ceil_div_eq_ceilDiv _ d.h_pos]
      push_cast
      rfl

/-- Two caps make no difference to the other side: they allow it to be halved alike, or halving it is its share. -/
def OtherAlike (cap cap' : Option ℕ) (side n other : ℕ) : Prop :=
  Hits side n → (Allows cap (level side n) ↔ Allows cap' (level side n)) ∨
    other ⌈/⌉ 2 ^ level side n = (other * n) ⌈/⌉ side

/-- Two caps make no difference to what a size asks of an image. -/
def RoundsAlike (cap cap' : Option ℕ) (s : SizeParts) (d : Dims) : Prop :=
  match s.kind with
  | .pixelsX => OtherAlike cap cap' d.w s.nx d.h
  | .pixelsY => OtherAlike cap cap' d.h s.ny d.w
  | _ => True

theorem otherAlike_iff (cap cap' : Option ℕ) (side n other : ℕ) :
    OtherAlike cap cap' side n other ↔ otherOf cap side n other = otherOf cap' side n other := by
  unfold OtherAlike otherOf
  by_cases hh : Hits side n
  · by_cases ha : Allows cap (level side n) <;> by_cases ha' : Allows cap' (level side n) <;>
      simp [hh, ha, ha', eq_comm]
  · simp [hh]

theorem roundsAlike_iff (cap cap' : Option ℕ) (s : SizeParts) (d : Dims) :
    RoundsAlike cap cap' s d ↔ target cap s d = target cap' s d := by
  unfold RoundsAlike target
  cases s.kind <;> simp [otherAlike_iff]

/-- Neither a buffer nor what a size asks of an image has a side of one pixel. -/
def Broad (buffer : Dims) (cap : Option ℕ) (s : SizeParts) (d : Dims) : Prop :=
  ∃ w h, Asks cap s d w h ∧ Scalable buffer (w, h)

theorem broad_iff {s : SizeParts} (hv : SizeParts.Valid s) (buffer : Dims) (cap : Option ℕ) (d : Dims) :
    Broad buffer cap s d ↔ Scalable buffer (target cap s d) := by
  unfold Broad
  simp only [asks_iff hv]
  constructor
  · rintro ⟨w, h, ht, hs⟩
    rwa [ht]
  · exact fun hs => ⟨_, _, rfl, hs⟩

/-! ### What a reader leaves -/

/-- The cap that a reader sets on the reduce level. -/
def Source.maxReduce (source : Source) (region : Region) : Option ℕ :=
  match source with
  | .jp2 levels _ => some levels
  | .jpeg => if region.kind = .full then some 3 else none
  | _ => none

/-- How often a reader lets the codec halve the crop. -/
def Source.halvings (source : Source) (region : Region) (size : SizeParts) (roi : Dims) : ℕ :=
  match source with
  | .jp2 levels _ => exponent (some levels) size roi
  | .jpeg => if region.kind = .full then exponent (some 3) size roi else 0
  | _ => 0

/-- Halving is not taken for enough where it is not, by the one reader that asks. -/
def Source.Told (source : Source) (size : SizeParts) (roi : Dims) : Prop :=
  match source with
  | .jp2 levels _ => HalvingExact (some levels) size roi
  | _ => True

/-- The region of a TIFF on the level of the pyramid that the size selects. -/
def levelCrop (full : Dims) (levels : List Dims) (region : Region) (size : SizeParts) : Except CropError Rect :=
  let level := selectPyramidLevel full levels (exponent none size full)
  cropCoords region (ratio full level) level

/-- A buffer that is scaled ends with what is asked for, any other as it is. -/
def EndsAt (scaled : Prop) (asked : ℕ × ℕ) (buffer : Dims) (t : ℕ × ℕ) : Prop :=
  scaled ∧ asked = t ∨ ¬ scaled ∧ buffer.sides = t

/-- What a reader leaves, by the source, the region and the size; `roi` is the crop of the whole image. -/
def Leaves (full : Dims) (source : Source) (region : Region) (size : SizeParts) (roi : Dims) (t : ℕ × ℕ) : Prop :=
  if size.kind = .full then roi.sides = t
  else match source with
    | .tiff levels _ => SizeParts.Defined none size full ∧ ∃ rect, levelCrop full levels region size = .ok rect ∧
        EndsAt (Broad rect.dims none size full) (target none size full) rect.dims t
    | _ => SizeParts.Defined (source.maxReduce region) size roi ∧
        EndsAt (Broad roi (source.maxReduce region) size roi ∧ source.Told size roi)
          (target (source.maxReduce region) size roi) (roi.reduced (source.halvings region size roi)) t

variable {source : Source} {buffer : Dims} {g : ℕ × ℕ}

theorem read_eq_ok_iff :
    read full source region size = .ok d ↔ ∃ p, decode full source region size = .ok p ∧ p.finish = d := map_eq_ok

theorem finish_scaled_iff {g : ℕ × ℕ} :
    (Decoded.mk buffer (some g)).finish = d ↔ EndsAt (Scalable buffer g) g buffer d.sides := by
  rw [← Dims.sides_inj]
  show (scale g buffer).sides = _ ↔ _
  unfold scale EndsAt
  split
  · next h => simp [h, Dims.sides]
  · next h => simp [h]

section
variable {full : Dims} {region : Region} {size : SizeParts} {rect : Rect}

theorem scalable_reduced_iff (hv : SizeParts.Valid size) (cap : Option ℕ) (d : Dims) :
    Scalable (d.reduced (exponent cap size d)) (target cap size d) ↔ Scalable d (target cap size d) := by
  have hle : ∀ side k : ℕ, side ⌈/⌉ 2 ^ k ≤ side := fun side k => by
    simpa using ceilDiv_two_pow_antitone side (Nat.zero_le k)
  constructor
  · rintro ⟨hx, hy, hw, hh⟩
    exact ⟨hx, hy, hw.trans_le (hle _ _), hh.trans_le (hle _ _)⟩
  · rintro ⟨hx, hy, hw, hh⟩
    by_cases ht : target cap size d ≤ (d.w, d.h)
    · obtain ⟨hrw, hrh⟩ := target_le_reduced cap hv ht
      exact ⟨hx, hy, hx.trans_le hrw, hy.trans_le hrh⟩
    · rw [exponent_of_enlarged cap hv ht, Dims.reduced_zero]
      exact ⟨hx, hy, hw, hh⟩

theorem read_full (source : Source) (hk : size.kind = .full) (hr : cropCoords region 1 full = .ok rect) :
    read full source region size = .ok rect.dims := by
  have hrs : ∀ cap d, resolve cap size d = .ok ⟨d.w, d.h, 0, true⟩ :=
    fun cap d => resolve_eq_ok.mpr (getSize_full hk cap d)
  have hre : ∀ r, residual size r = none := fun r => if_pos hk
  have hct : cropTo region 1 full = .ok rect.dims := cropTo_eq_ok_iff.mpr ⟨rect, hr, rfl⟩
  refine read_eq_ok_iff.mpr ⟨⟨rect.dims, none⟩, ?_, rfl⟩
  cases source with
  | tiff levels clevels =>
    have hrt : ratio full full = 1 := by
      have hw : (full.w : ℚ) ≠ 0 := by exact_mod_cast full.w_pos.ne'
      rw [ratio, div_self hw]
      decide +kernel
    show decodeTiff full levels region size = _
    simp only [decodeTiff, hrs, bind, Except.bind, selectPyramidLevel, if_true, hrt, hct, hre, pure, Except.pure]
  | jp2 levels clevels =>
    show decodeJ2k full levels region size = _
    simp only [decodeJ2k, cropWhole_eq_ok hr, bind, Except.bind, hk, if_true, pure, Except.pure]
  | jpeg =>
    show decodeJpeg full region size = _
    by_cases hrg : region.kind = .full
    · rw [crop_full hrg] at hr
      cases hr
      simp only [decodeJpeg, hrg, hk, if_true, pure, Except.pure]
    · simp only [decodeJpeg, hrg, if_false, hct, hrs, bind, Except.bind, hre, pure, Except.pure]
  | png =>
    show decodePng full region size = _
    simp only [decodePng, cropWhole_eq_ok hr, hrs, bind, Except.bind, hre, pure, Except.pure]

theorem resolve_iff (cap : Option ℕ) (hv : SizeParts.Valid size) (ha : SizeParts.Accepted size d) {P : Resolved → Prop} {Q : Prop}
    (hPQ : ∀ r, getSize cap size d = .ok r → r.sides = target cap size d → r.reduce = exponent cap size d →
      (P r ↔ Q)) :
    (∃ r, resolve cap size d = .ok r ∧ P r) ↔ SizeParts.Defined cap size d ∧ Q := by
  simp only [resolve_eq_ok]
  have hg := getSize_ok_iff (d := d) cap hv
  constructor
  · rintro ⟨r, hr, hp⟩
    exact ⟨(hg.mp ⟨r, hr⟩).2, (hPQ r hr (sides_of_getSize hv hr) (reduce_of_getSize hv hr)).mp hp⟩
  · rintro ⟨hd, hq⟩
    obtain ⟨r, hr⟩ := hg.mpr ⟨ha, hd⟩
    exact ⟨r, hr, (hPQ r hr (sides_of_getSize hv hr) (reduce_of_getSize hv hr)).mpr hq⟩

theorem read_tiff (hk : size.kind ≠ .full) (hv : SizeParts.Valid size) (ha : SizeParts.Accepted size full)
    (levels : List Dims) (clevels : ℤ) (roi : Dims) :
    read full (.tiff levels clevels) region size = .ok d ↔
      Leaves full (.tiff levels clevels) region size roi d.sides := by
  unfold Leaves
  rw [read_eq_ok_iff, if_neg hk]
  refine Iff.trans ?_ (resolve_iff none hv ha
    (P := fun r => ∃ b, cropTo region (ratio full (selectPyramidLevel full levels r.reduce))
      (selectPyramidLevel full levels r.reduce) = .ok b ∧ (Decoded.mk b (residual size r)).finish = d) ?_)
  · show (∃ p, decodeTiff full levels region size = .ok p ∧ p.finish = d) ↔ _
    simp only [decodeTiff, bind_eq_ok]
    constructor
    · rintro ⟨_, ⟨r, hr, b, hb, h⟩, hf⟩
      cases h
      exact ⟨r, hr, b, hb, hf⟩
    · rintro ⟨r, hr, b, hb, hf⟩
      exact ⟨_, ⟨r, hr, b, hb, rfl⟩, hf⟩
  · intro r _ hs hre
    simp only [hre, cropTo_eq_ok_iff, residual, if_neg hk, hs, finish_scaled_iff, broad_iff hv, levelCrop]
    constructor
    · rintro ⟨_, ⟨rect, hc, rfl⟩, he⟩
      exact ⟨rect, hc, he⟩
    · rintro ⟨rect, hc, he⟩
      exact ⟨_, ⟨rect, hc, rfl⟩, he⟩

theorem read_jp2 (hk : size.kind ≠ .full) (hv : SizeParts.Valid size) (hrc : cropCoords region 1 full = .ok rect)
    (ha : SizeParts.Accepted size rect.dims) (levels : ℕ) (clevels : ℤ) :
    read full (.jp2 levels clevels) region size = .ok d ↔
      Leaves full (.jp2 levels clevels) region size rect.dims d.sides := by
  unfold Leaves
  rw [read_eq_ok_iff, if_neg hk]
  refine Iff.trans ?_ (resolve_iff (some levels) hv ha
    (P := fun r => (Decoded.mk (rect.dims.reduced r.reduce) (if r.redonly then none else some r.sides)).finish = d) ?_)
  · show (∃ p, decodeJ2k full levels region size = .ok p ∧ p.finish = d) ↔ _
    simp only [decodeJ2k, cropWhole_eq_ok hrc, hk, if_false, bind_eq_ok]
    constructor
    · rintro ⟨_, ⟨b, hb, r, hr, h⟩, hf⟩
      cases hb
      cases h
      exact ⟨r, hr, hf⟩
    · rintro ⟨r, hr, hf⟩
      exact ⟨_, ⟨_, rfl, r, hr, rfl⟩, hf⟩
  · intro r hr hs hre
    have hsr := scalable_reduced_iff hv (some levels) rect.dims
    rw [← hre, ← hs] at hsr
    simp only [Source.Told, Source.maxReduce, Source.halvings, broad_iff hv, ← honest_iff hv hr, ← hre, ← hs, ← hsr]
    cases hrd : r.redonly with
    | false =>
      rw [if_neg Bool.false_ne_true, finish_scaled_iff]
      simp [Resolved.Honest, hrd]
    | true =>
      -- halving that is enough gives the size itself
      rw [if_pos rfl]
      show rect.dims.reduced r.reduce = d ↔ _
      rw [← Dims.sides_inj]
      by_cases hx : r.Exact rect.dims
      · have hsd : (rect.dims.reduced r.reduce).sides = r.sides := Prod.ext hx.1 hx.2
        rw [EndsAt, hsd, ← or_and_right]
        simp [em]
      · have hh : ¬ r.Honest rect.dims := fun h => hx (h hrd)
        simp [EndsAt, hh]

theorem read_png (hk : size.kind ≠ .full) (hv : SizeParts.Valid size) (hrc : cropCoords region 1 full = .ok rect)
    (ha : SizeParts.Accepted size rect.dims) :
    read full .png region size = .ok d ↔ Leaves full .png region size rect.dims d.sides := by
  unfold Leaves
  rw [read_eq_ok_iff, if_neg hk]
  refine Iff.trans ?_ (resolve_iff none hv ha
    (P := fun r => (Decoded.mk rect.dims (residual size r)).finish = d) ?_)
  · show (∃ p, decodePng full region size = .ok p ∧ p.finish = d) ↔ _
    simp only [decodePng, cropWhole_eq_ok hrc, bind_eq_ok]
    constructor
    · rintro ⟨_, ⟨b, hb, r, hr, h⟩, hf⟩
      cases hb
      cases h
      exact ⟨r, hr, hf⟩
    · rintro ⟨r, hr, hf⟩
      exact ⟨_, ⟨_, rfl, r, hr, rfl⟩, hf⟩
  · intro r _ hs _
    simp only [Source.Told, Source.maxReduce, Source.halvings, broad_iff hv, Dims.reduced_zero, and_true, residual,
      if_neg hk, hs, finish_scaled_iff]

theorem read_jpeg (hk : size.kind ≠ .full) (hv : SizeParts.Valid size) (hrc : cropCoords region 1 full = .ok rect)
    (ha : SizeParts.Accepted size rect.dims) :
    read full .jpeg region size = .ok d ↔ Leaves full .jpeg region size rect.dims d.sides := by
  by_cases hrg : region.kind = .full
  · rw [crop_full hrg] at hrc
    cases hrc
    unfold Leaves
    rw [read_eq_ok_iff, if_neg hk, show Source.jpeg.maxReduce region = some 3 from if_pos hrg]
    refine Iff.trans ?_ (resolve_iff (some 3) hv ha
      (P := fun r => (Decoded.mk (full.reduced r.reduce) (some r.sides)).finish = d) ?_)
    · show (∃ p, decodeJpeg full region size = .ok p ∧ p.finish = d) ↔ _
      simp only [decodeJpeg, hrg, hk, if_true, if_false, bind_eq_ok]
      constructor
      · rintro ⟨_, ⟨r, hr, h⟩, hf⟩
        cases h
        exact ⟨r, hr, hf⟩
      · rintro ⟨r, hr, hf⟩
        exact ⟨_, ⟨r, hr, rfl⟩, hf⟩
    · intro r _ hs hre
      have hsr := scalable_reduced_iff hv (some 3) full
      rw [← hre, ← hs] at hsr
      simp only [Source.Told, Source.halvings, broad_iff hv, hrg, if_true, and_true, ← hre, ← hs, ← hsr]
      exact finish_scaled_iff
  · -- of a crop it does what the PNG reader does
    have hp := read_png (d := d) hk hv hrc ha
    have hct : cropTo region 1 full = .ok rect.dims := cropTo_eq_ok_iff.mpr ⟨rect, hrc, rfl⟩
    have he : read full .jpeg region size = read full .png region size := by
      show (decodeJpeg full region size).map _ = (decodePng full region size).map _
      simp only [decodeJpeg, decodePng, hrg, if_false, hct, cropWhole_eq_ok hrc]
    rw [he, hp]
    simp only [Leaves, Source.Told, Source.maxReduce, Source.halvings, hrg, if_false]

theorem read_iff_leaves (hv : SizeParts.Valid size) (hrc : cropCoords region 1 full = .ok rect)
    (ha : SizeParts.Accepted size rect.dims) :
    read full source region size = .ok d ↔ Leaves full source region size rect.dims d.sides := by
  by_cases hk : size.kind = .full
  · unfold Leaves
    rw [if_pos hk, read_full source hk hrc, Dims.sides_inj, Except.ok.injEq]
  cases source with
  | tiff levels clevels => exact read_tiff hk hv (ha.mono (crop_within hrc)) levels clevels rect.dims
  | jp2 levels clevels => exact read_jp2 hk hv hrc ha levels clevels
  | jpeg => exact read_jpeg hk hv hrc ha
  | png => exact read_png hk hv hrc ha

end

/-! ### When a reader delivers what is predicted -/

/-- What a source, a region and a size have to meet for the reader to deliver what is predicted. Of a TIFF the size
asks the same of the whole image as of the crop, or of the crop just what the selected level has, if that is not
scaled. Of the others both caps round the size alike, halving is not taken for enough where it is not, and if a side
has one pixel the size asks for what the codec delivers. -/
def Agrees (full : Dims) (source : Source) (region : Region) (size : SizeParts) (roi : Dims) : Prop :=
  match source with
  | .tiff levels clevels => SizeParts.Defined none size full ∧
      ∃ rect, levelCrop full levels region size = .ok rect ∧
        (Broad rect.dims none size full → ∃ w h, Asks none size full w h ∧ Asks (some clevels.toNat) size roi w h) ∧
        (¬ Broad rect.dims none size full → Asks (some clevels.toNat) size roi rect.dims.w rect.dims.h)
  | _ =>
    let cap := source.maxReduce region
    let halved := roi.reduced (source.halvings region size roi)
    SizeParts.Defined cap size roi ∧ RoundsAlike cap source.predictedCap size roi ∧ source.Told size roi ∧
      (Broad roi cap size roi ∨ Asks cap size roi halved.w halved.h)

section
variable {size : SizeParts} {cap cap' : Option ℕ} {d : Dims} {k : ℕ}

theorem otherOf_of_halved {side n : ℕ} (hn : 0 < n) (hk : k ≤ level side n) (ha : Allows cap k) (other : ℕ)
    (h : n = side ⌈/⌉ 2 ^ k) : otherOf cap side n other = other ⌈/⌉ 2 ^ k := by
  obtain rfl : k = level side n := le_antisymm hk ((level_le_iff hn k).mpr h.ge)
  exact if_pos ⟨h.symm, ha⟩

theorem target_of_reduced (hv : SizeParts.Valid size) (hk : k = exponent cap size d ∨ k = 0)
    (h : target cap' size d = (d.reduced k).sides) : target cap size d = (d.reduced k).sides := by
  have hl : ∀ side n, k = capped cap (reach side n) ∨ k = 0 → k ≤ level side n ∧ Allows cap k := by
    rintro side n (rfl | rfl)
    · exact ⟨(capped_le _ _).trans (reach_le_level side n), allows_capped _ _⟩
    · exact ⟨Nat.zero_le _, fun m _ => Nat.zero_le m⟩
  unfold target exponent at *
  unfold SizeParts.Valid at hv
  cases hs : size.kind <;> simp only [hs] at hv hk h ⊢
  case pixelsX =>
    obtain ⟨hw, -⟩ := Prod.mk.inj h
    obtain ⟨hkl, ha⟩ := hl _ _ hk
    exact Prod.ext hw (otherOf_of_halved hv hkl ha d.h hw)
  case pixelsY =>
    obtain ⟨-, hh⟩ := Prod.mk.inj h
    obtain ⟨hkl, ha⟩ := hl _ _ hk
    exact Prod.ext (otherOf_of_halved hv hkl ha d.w hh) hh
  all_goals exact h

theorem endsAt_target_iff (hv : SizeParts.Valid size) (hk : k = exponent cap size d ∨ k = 0) {told : Prop}
    (ht : target cap size d = (d.reduced k).sides → told) :
    EndsAt (Broad d cap size d ∧ told) (target cap size d) (d.reduced k) (target cap' size d) ↔
      RoundsAlike cap cap' size d ∧ told ∧ (Broad d cap size d ∨ Asks cap size d (d.reduced k).w (d.reduced k).h) := by
  rw [roundsAlike_iff, asks_iff hv]
  constructor
  · rintro (⟨⟨hb, hl⟩, h⟩ | ⟨hn, h⟩)
    · exact ⟨h, hl, Or.inl hb⟩
    · have hr := target_of_reduced hv hk h.symm
      exact ⟨hr.trans h, ht hr, Or.inr hr⟩
  · rintro ⟨h, hl, hbr⟩
    by_cases hb : Broad d cap size d
    · exact Or.inl ⟨⟨hb, hl⟩, h⟩
    · exact Or.inr ⟨fun hn => hb hn.1, (hbr.resolve_left hb).symm.trans h⟩

end

def leftHalf : Region := ⟨.coords, 0, 0, 50, 100, by norm_num⟩

def hundredSquare : Dims := .mk 100 100

/-- `10,`. -/
def tenWide : SizeParts := ⟨.pixelsX, false, 0, 0, 10, 0⟩

end Sipi.Geometry
