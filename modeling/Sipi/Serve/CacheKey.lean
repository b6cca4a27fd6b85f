import Sipi.Theory.Fields
import Sipi.Geometry.Rotation
import Sipi.Serve.Restricted

/-!
# The cache key

`build_canonical_url` of `ffi/serve_image.cpp` writes a request in a canonical form: the region and the size in
pixels, the angle with at most one decimal place, the quality and the format, and whether there is a watermark.

## Honest scope

An angle is a `float`, and `%1.1f` rounds its exact value, a tie to the even digit. The difference from the whole
number below is exact, and no `float` lies between `1.0e-6` and its exact value. The rectangle is the one on the
whole image; a TIFF reader may cut a smaller level of a pyramid.
-/

namespace Sipi.Serve

open Sipi.Iiif Sipi.Geometry Sipi.Theory

/-- `SipiRotation`. -/
structure Rotation where
  mirror : Bool
  angle : ℚ
  nonneg : 0 ≤ angle
  float : single.Mem angle
  range : angle < 2 ^ 63

/-- Where an image is served. -/
structure Place where
  host : Str
  pre : Str
  identifier : Str
  page : ℤ

/-- An image request, after the preflight. -/
structure ImageRequest where
  scheme : Str
  region : Region
  size : SizeParts
  restricted : SizeParts
  rotation : Rotation
  quality : QualityKind
  format : FormatKind
  watermark : Str
  size_valid : SizeParts.Valid size
  restricted_valid : Undefined restricted ∨ SizeParts.Valid restricted

/-! ### The canonical form -/

/-- `SipiError` of `build_canonical_url`. -/
inductive CanonicalError where
  | region (e : ReadError)
  | size
  | sizeString
  | format
  deriving DecidableEq

/-- `SipiRegion::canonical`. -/
def regionText : Option Rect → Str
  | none => txt "full"
  | some rect => decimals ',' [rect.x, rect.y, rect.dims.w, rect.dims.h]

/-- The `^` of a size that may enlarge. -/
def caret (s : SizeParts) : Str := if s.upscaling then ['^'] else []

/-- `SipiSize::canonical`, after `get_size`. -/
def sizeText (s : SizeParts) (full : Dims) : Except CanonicalError Str :=
  match s.kind with
  | .full => .ok (caret s ++ txt "max")
  | .undefined => .error .sizeString
  | _ => ((getSize (some 0) s full).mapError fun _ => .size).map fun r =>
      caret s ++ decimals ',' [r.w, r.h]

/-- The angle in tenths, as `%1.1f` rounds it. -/
def tenths (q : ℚ) : ℕ :=
  let n := ⌊10 * q⌋₊
  if 10 * q - n < 1 / 2 ∨ (10 * q - n = 1 / 2 ∧ n % 2 = 0) then n else n + 1

/-- The angle is whole to six places. -/
def IsWhole (q : ℚ) : Prop := q - ⌊q⌋ < 1 / 10 ^ 6

instance (q : ℚ) : Decidable (IsWhole q) := inferInstanceAs (Decidable (_ < _))

/-- The angle, without a place if it is whole. -/
def angleText (q : ℚ) : Str :=
  if IsWhole q then decimal ⌊q + 1 / 2⌋₊ else decimal (tenths q / 10) ++ '.' :: decimal (tenths q % 10)

/-- The rotation. -/
def rotationText (r : Rotation) : Str :=
  if r.mirror = true ∨ r.angle ≠ 0 then (if r.mirror then ['!'] else []) ++ angleText r.angle else txt "0"

/-- The extension of a format that can be written. -/
def extension : FormatKind → Except CanonicalError Str
  | .jpg => .ok (txt "jpg")
  | .jp2 => .ok (txt "jp2")
  | .tif => .ok (txt "tif")
  | .png => .ok (txt "png")
  | _ => .error .format

/-- The quality. -/
def qualityText : QualityKind → Str
  | .color => txt "color"
  | .gray => txt "gray"
  | .bitonal => txt "bitonal"
  | .default => txt "default"

/-- The identifier with its page. -/
def Place.fullid (p : Place) : Str := p.identifier ++ if 0 < p.page then '@' :: decimal p.page.toNat else []

/-- Whether there is a watermark. -/
def watermarkText (watermark : Str) : Str := if watermark = [] then txt "0" else txt "1"

/-- `build_canonical_url`: `Link` header and key. -/
def buildCanonicalUrl (place : Place) (full : Dims) (r : ImageRequest) (size : SizeParts) :
    Except CanonicalError (Str × Str) := do
  let found ← (cropFound r.region full).mapError .region
  let sizeText ← sizeText size full
  let ext ← extension r.format
  let header := ('<' :: r.scheme) ++ txt "://" ++ ['/'].intercalate [place.host, place.pre, place.fullid,
    regionText found, sizeText, rotationText r.rotation, txt "default." ++ ext, watermarkText r.watermark] ++
    txt ">;rel=\"canonical\""
  let key := ['/'].intercalate [place.host, place.pre, place.fullid, regionText found, sizeText,
    rotationText r.rotation, qualityText r.quality ++ '.' :: ext, watermarkText r.watermark]
  return (header.take 510, key)

/-- The key under which the cache looks. -/
def cacheKey (place : Place) (full : Dims) (r : ImageRequest) (effective : SizeParts) : Except CanonicalError Str :=
  (buildCanonicalUrl place full r effective).map Prod.snd

/-- What the decode of a request comes to. -/
@[ext] structure Rendering where
  /-- The rectangle that is cut. -/
  rect : Rect
  /-- The image that the reader leaves. -/
  out : Dims
  /-- Whether it is mirrored. -/
  mirror : Bool
  /-- How far it is turned. -/
  angle : ℚ
  /-- The quality. -/
  quality : QualityKind
  /-- The format. -/
  format : FormatKind
  /-- The watermark. -/
  watermark : Str
  deriving DecidableEq

/-- The rendering of a request. -/
def rendering (full : Dims) (source : Source) (r : ImageRequest) : Except RestrictedError Rendering := do
  let out ← decodeRestricted full source r.region r.size r.restricted
  let found ← (cropFound r.region full).mapError .canonical
  return ⟨found.getD ⟨0, 0, full⟩, out, r.rotation.mirror, r.rotation.angle, r.quality, r.format, r.watermark⟩

variable {s : SizeParts} {full : Dims} {t : Str}

section
variable {c : Char}

theorem not_mem_regionText (hd : c.isDigit = false) (hc : c ≠ ',') (hf : c ∉ txt "full")
    (found : Option Rect) : c ∉ regionText found := by
  cases found with
  | none => exact hf
  | some rect => exact not_mem_decimals ',' hd hc _

theorem not_mem_angleText (hd : c.isDigit = false) (hdt : c ≠ '.') (q : ℚ) : c ∉ angleText q := by
  unfold angleText
  split
  · exact not_mem_decimal hd _
  · simp [not_mem_decimal hd, hdt]

theorem rotationText_eq (r : Rotation) : rotationText r = (if r.mirror then ['!'] else []) ++ angleText r.angle := by
  unfold rotationText
  split
  · rfl
  · next h =>
    obtain ⟨hm, ha⟩ := not_or.mp h
    rw [if_neg hm, not_not.mp ha]
    decide +kernel

theorem not_mem_rotationText (hd : c.isDigit = false) (hdt : c ≠ '.') (hm : c ≠ '!') (r : Rotation) :
    c ∉ rotationText r := by
  rw [rotationText_eq]
  split <;> simp [not_mem_angleText hd hdt, hm]

theorem sizeText_eq_ok (h : sizeText s full = .ok t) :
    (s.kind = .full ∧ t = caret s ++ txt "max") ∨
      (s.kind ≠ .full ∧ ∃ r : Resolved, getSize (some 0) s full = .ok r ∧ t = caret s ++ decimals ',' [r.w, r.h]) := by
  unfold sizeText at h
  split at h
  · next hk => exact Or.inl ⟨hk, (Except.ok.inj h).symm⟩
  · cases h
  · next hf _ =>
    obtain ⟨r, hr, rfl⟩ := map_eq_ok.mp h
    exact Or.inr ⟨hf, r, mapError_eq_ok.mp hr, rfl⟩

theorem not_mem_sizeText (hd : c.isDigit = false) (hcm : c ≠ ',') (hcr : c ≠ '^') (hm : c ∉ txt "max")
    (h : sizeText s full = .ok t) : c ∉ t := by
  have hc : c ∉ caret s := by
    unfold caret
    split <;> simp [hcr]
  rcases sizeText_eq_ok h with ⟨_, rfl⟩ | ⟨_, r, _, rfl⟩
  · simp [hc, hm]
  · rw [List.mem_append, not_or]
    exact ⟨hc, not_mem_decimals ',' hd hcm _⟩

end

/-! ### What each field gives back -/

theorem regionText_inj {a b : Option Rect} (h : regionText a = regionText b) : a = b := by
  have hl : ∀ rect : Rect, regionText (some rect) ≠ txt "full" := by
    intro rect heq
    refine not_mem_decimals (c := 'f') ',' (by decide) (by decide) [rect.x, rect.y, rect.dims.w, rect.dims.h] ?_
    rw [show decimals ',' _ = txt "full" from heq]
    decide
  cases a with
  | none =>
    cases b with
    | none => rfl
    | some b => exact absurd h.symm (hl b)
  | some a =>
    cases b with
    | none => exact absurd h (hl a)
    | some b =>
      have hn := decimals_inj ',' (by decide) (by rfl) (show decimals ',' _ = decimals ',' _ from h)
      simp only [List.cons.injEq, and_true] at hn
      obtain ⟨hx, hy, hw, hh⟩ := hn
      obtain ⟨ax, ay, a⟩ := a
      obtain ⟨bx, _, b⟩ := b
      obtain rfl : a = b := Dims.ext hw hh
      subst hx hy
      rfl

theorem mem_sizeText_iff (h : sizeText s full = .ok t) : 'm' ∈ t ↔ s.kind = .full := by
  have hc : 'm' ∉ caret s := by
    unfold caret
    split <;> decide
  rcases sizeText_eq_ok h with ⟨hk, rfl⟩ | ⟨hk, r, _, rfl⟩
  · exact iff_of_true (List.mem_append_right _ (by decide)) hk
  · refine iff_of_false ?_ hk
    rw [List.mem_append, not_or]
    exact ⟨hc, not_mem_decimals ',' (by decide) (by decide) _⟩

theorem target_of_sizeText {s' : SizeParts} (hv : SizeParts.Valid s) (hv' : SizeParts.Valid s')
    (h : sizeText s full = .ok t) (h' : sizeText s' full = .ok t) (hk : s.kind ≠ .full) :
    target (some 0) s full = target (some 0) s' full := by
  obtain ⟨r, hr, rfl⟩ := ((sizeText_eq_ok h).resolve_left fun hf => hk hf.1).2
  have hk' : s'.kind ≠ .full := fun hf => hk ((mem_sizeText_iff h).mp ((mem_sizeText_iff h').mpr hf))
  obtain ⟨r', hr', heq⟩ := ((sizeText_eq_ok h').resolve_left fun hf => hk' hf.1).2
  have hc : ∀ r : Resolved, '^' ∉ decimals ',' [r.w, r.h] := fun r => not_mem_decimals ',' (by decide) (by decide) _
  have hd : decimals ',' [r.w, r.h] = decimals ',' [r'.w, r'.h] := by
    unfold caret at heq
    split at heq <;> split at heq
    · exact (List.cons.inj heq).2
    · exact absurd ((show '^' :: _ = decimals ',' _ from heq) ▸ List.mem_cons_self) (hc r')
    · exact absurd ((show '^' :: _ = decimals ',' _ from heq.symm) ▸ List.mem_cons_self) (hc r)
    · exact heq
  have hn := decimals_inj ',' (by decide) (by rfl) hd
  simp only [List.cons.injEq, and_true] at hn
  rw [← sides_of_getSize hv hr, ← sides_of_getSize hv' hr']
  exact Prod.ext hn.1 hn.2

/-- The angle that the key prints. -/
def printed (q : ℚ) : ℚ := if IsWhole q then ⌊q + 1 / 2⌋₊ else tenths q / 10

theorem printed_of_angleText {q q' : ℚ} (h : angleText q = angleText q') : printed q = printed q' := by
  have hd : ∀ n, '.' ∉ decimal n := not_mem_decimal (by decide)
  have hp : ∀ m n k, decimal m ≠ decimal n ++ '.' :: decimal k := fun m n k heq => hd m (heq ▸ by simp)
  unfold printed
  unfold angleText at h
  by_cases hw : IsWhole q <;> by_cases hw' : IsWhole q' <;> simp only [hw, hw', if_true, if_false] at h ⊢
  · rw [decimal_inj h]
  · exact absurd h (hp _ _ _)
  · exact absurd h.symm (hp _ _ _)
  · obtain ⟨hn, ht⟩ := append_sep_inj (hd _) (hd _) h
    have heq : tenths q = tenths q' := by
      have := decimal_inj hn
      have := decimal_inj ht
      omega
    rw [heq]

theorem mem_rotationText_iff (r : Rotation) : '!' ∈ rotationText r ↔ r.mirror = true := by
  have ha := not_mem_angleText (show '!'.isDigit = false by decide) (by decide) r.angle
  rw [rotationText_eq]
  cases r.mirror <;> simp [ha]

theorem rotationText_inj {r r' : Rotation} (h : rotationText r = rotationText r') :
    r.mirror = r'.mirror ∧ printed r.angle = printed r'.angle := by
  have hm : r.mirror = r'.mirror := by
    rw [Bool.eq_iff_iff, ← mem_rotationText_iff, ← mem_rotationText_iff, h]
  rw [rotationText_eq, rotationText_eq, hm] at h
  exact ⟨hm, printed_of_angleText (List.append_cancel_left h)⟩

theorem extension_inj {f f' : FormatKind} (h : extension f = .ok t) (h' : extension f' = .ok t) : f = f' := by
  have heq := h.trans h'.symm
  cases f <;> cases f' <;> first | rfl | exact absurd heq (by decide) | cases h

theorem qualityText_inj {q q' : QualityKind} (h : qualityText q = qualityText q') : q = q' := by
  cases q <;> cases q' <;> first | rfl | (exact absurd h (by decide))

theorem watermarkText_inj {w w' : Str} (h : watermarkText w = watermarkText w') : w = [] ↔ w' = [] := by
  unfold watermarkText at h
  by_cases hw : w = [] <;> by_cases hw' : w' = [] <;> simp [hw, hw'] at h ⊢ <;> exact absurd h (by decide)

theorem cacheKey_eq_ok {place : Place} {r : ImageRequest} {size : SizeParts} {key : Str}
    (h : cacheKey place full r size = .ok key) :
    ∃ found text ext, cropFound r.region full = .ok found ∧ sizeText size full = .ok text ∧
      extension r.format = .ok ext ∧
      key = ['/'].intercalate [place.host, place.pre, place.fullid, regionText found, text,
        rotationText r.rotation, qualityText r.quality ++ '.' :: ext, watermarkText r.watermark] := by
  obtain ⟨url, hu, rfl⟩ := map_eq_ok.mp h
  obtain ⟨found, hf, hu⟩ := bind_eq_ok.mp hu
  obtain ⟨text, ht, hu⟩ := bind_eq_ok.mp hu
  obtain ⟨ext, he, hu⟩ := bind_eq_ok.mp hu
  cases hu
  exact ⟨found, text, ext, mapError_eq_ok.mp hf, ht, he, rfl⟩

theorem not_mem_extension {c : Char} (hc : c ∉ txt "jpg" ∧ c ∉ txt "jp2" ∧ c ∉ txt "tif" ∧ c ∉ txt "png")
    {f : FormatKind} {ext : Str} (h : extension f = .ok ext) : c ∉ ext := by
  obtain ⟨hj, hj2, ht, hp⟩ := hc
  cases f <;> cases h
  case jpg => exact hj
  case tif => exact ht
  case png => exact hp
  case jp2 => exact hj2

theorem not_mem_qualityText {c : Char} (q : QualityKind)
    (hc : c ∉ txt "color" ∧ c ∉ txt "gray" ∧ c ∉ txt "bitonal" ∧ c ∉ txt "default") : c ∉ qualityText q := by
  obtain ⟨hcl, hg, hb, hd⟩ := hc
  cases q with
  | default => exact hd
  | color => exact hcl
  | gray => exact hg
  | bitonal => exact hb

theorem slash_not_mem_fields (found : Option Rect) (r : ImageRequest) {size : SizeParts} {text ext : Str}
    (ht : sizeText size full = .ok text) (he : extension r.format = .ok ext) :
    ∀ w ∈ [regionText found, text, rotationText r.rotation, qualityText r.quality ++ '.' :: ext,
      watermarkText r.watermark], '/' ∉ w := by
  intro w hw
  simp only [List.mem_cons, List.not_mem_nil, or_false] at hw
  rcases hw with rfl | rfl | rfl | rfl | rfl
  · exact not_mem_regionText (by decide) (by decide) (by decide) found
  · exact not_mem_sizeText (by decide) (by decide) (by decide) (by decide) ht
  · exact not_mem_rotationText (by decide) (by decide) (by decide) r.rotation
  · rw [List.mem_append, List.mem_cons, not_or, not_or]
    exact ⟨not_mem_qualityText _ (by decide), by decide, not_mem_extension (by decide) he⟩
  · unfold watermarkText
    split <;> decide

section
variable {place : Place} {full : Dims} {r r' : ImageRequest} {size size' : SizeParts} {key : Str}

theorem fields_of_cacheKey (hv : SizeParts.Valid size) (hv' : SizeParts.Valid size')
    (h : cacheKey place full r size = .ok key) (h' : cacheKey place full r' size' = .ok key) :
    cropFound r.region full = cropFound r'.region full ∧
      (r.rotation.mirror = r'.rotation.mirror ∧ printed r.rotation.angle = printed r'.rotation.angle) ∧
      r.quality = r'.quality ∧ r.format = r'.format ∧ (size.kind = .full ↔ size'.kind = .full) ∧
      (size.kind ≠ .full → target (some 0) size full = target (some 0) size' full) ∧
      (r.watermark = [] ↔ r'.watermark = []) := by
  obtain ⟨found, text, ext, hf, ht, he, rfl⟩ := cacheKey_eq_ok h
  obtain ⟨found', text', ext', hf', ht', he', heq⟩ := cacheKey_eq_ok h'
  -- host, path and identifier are those of the place; what follows has no slash in a field
  simp only [intercalate_cons_cons _ place.host, intercalate_cons_cons _ place.pre,
    intercalate_cons_cons _ place.fullid] at heq
  have hrs := (List.cons.inj (List.append_cancel_left (List.cons.inj (List.append_cancel_left
    (List.cons.inj (List.append_cancel_left heq)).2)).2)).2
  have hl := intercalate_inj (by rfl) (slash_not_mem_fields found r ht he)
    (slash_not_mem_fields found' r' ht' he') hrs
  simp only [List.cons.injEq, and_true] at hl
  obtain ⟨hrg, rfl, hr, hql, hwm⟩ := hl
  obtain rfl := regionText_inj hrg
  obtain ⟨hq, rfl⟩ := append_sep_inj (not_mem_qualityText _ (by decide)) (not_mem_qualityText _ (by decide)) hql
  exact ⟨hf.trans hf'.symm, rotationText_inj hr, qualityText_inj hq, extension_inj he he',
    (mem_sizeText_iff ht).symm.trans (mem_sizeText_iff ht'), target_of_sizeText hv hv' ht ht', watermarkText_inj hwm⟩

end

/-! ### When the renderings are the same -/

theorem ImageRequest.effective_valid (r : ImageRequest) {effective : SizeParts}
    (h : effectiveSize full r.size r.restricted = .ok effective) : SizeParts.Valid effective :=
  effectiveSize_valid r.size_valid r.restricted_valid h

/-- What the key leaves out of an angle. -/
def unprinted (q : ℚ) : ℚ := q - printed q

/-- Two sizes of a kind that is written in pixels, `w,h`, `w,` or `,h`. -/
def SamePixels (s s' : SizeParts) : Prop :=
  s.kind = s'.kind ∧ (s.kind = .pixelsXy ∨ s.kind = .pixelsX ∨ s.kind = .pixelsY)

/-- A TIFF reader crops with the region itself, the others with the rectangle. -/
def SameCut (source : Source) (region region' : Region) : Prop :=
  match source with
  | .tiff _ _ => region = region'
  | _ => True

/-- Two requests ask for the same sides as far as they are scaled to what they ask for, and of what is left as far as
they are not. -/
structure AskAlike (scaled scaled' : Prop) (asks asks' : ℕ → ℕ → Prop) (left left' : Dims) : Prop where
  /-- Both are scaled. -/
  both : scaled → scaled' → ∃ w h, asks w h ∧ asks' w h
  /-- Only the first is. -/
  first : scaled → ¬ scaled' → asks left'.w left'.h
  /-- Only the second is. -/
  second : ¬ scaled → scaled' → asks' left.w left.h
  /-- Neither is. -/
  neither : ¬ scaled → ¬ scaled' → left = left'

/-- What the sizes of two requests have to meet, `roi` being their crop. Sizes in pixels of one kind need not, if they
are cut alike: the key has their numbers. -/
def SizesAgree (full : Dims) (source : Source) (region region' : Region) (size size' : SizeParts) (roi : Dims) : Prop :=
  size.kind ≠ .full → ¬ (SamePixels size size' ∧ SameCut source region region') →
    match source with
    | .tiff levels _ => ∀ rect rect', levelCrop full levels region size = .ok rect →
        levelCrop full levels region' size' = .ok rect' →
        AskAlike (Broad rect.dims none size full) (Broad rect'.dims none size' full) (Asks none size full)
          (Asks none size' full) rect.dims rect'.dims
    | _ =>
      let cap := source.maxReduce region
      AskAlike (Broad roi cap size roi ∧ source.Told size roi) (Broad roi cap size' roi ∧ source.Told size' roi)
        (Asks cap size roi) (Asks cap size' roi) (roi.reduced (source.halvings region size roi))
        (roi.reduced (source.halvings region size' roi))

section
variable {place : Place} {full : Dims} {source : Source} {r r' : ImageRequest} {size size' : SizeParts} {key : Str}

theorem endsAt_eq_iff {scaled scaled' : Prop} {asks asks' : ℕ → ℕ → Prop} {asked asked' t t' : ℕ × ℕ}
    {left left' : Dims} (ha : ∀ w h, asks w h ↔ asked = (w, h)) (ha' : ∀ w h, asks' w h ↔ asked' = (w, h))
    (h : EndsAt scaled asked left t) (h' : EndsAt scaled' asked' left' t') :
    t = t' ↔ AskAlike scaled scaled' asks asks' left left' := by
  rcases h with ⟨hs, rfl⟩ | ⟨hs, rfl⟩ <;> rcases h' with ⟨hs', rfl⟩ | ⟨hs', rfl⟩
  · constructor
    · exact fun heq => ⟨fun _ _ => ⟨_, _, (ha _ _).mpr rfl, (ha' _ _).mpr heq.symm⟩, fun _ hn => absurd hs' hn,
        fun hn => absurd hs hn, fun hn => absurd hs hn⟩
    · intro hal
      obtain ⟨w, h, hw, hw'⟩ := hal.both hs hs'
      exact ((ha w h).mp hw).trans ((ha' w h).mp hw').symm
  · exact ⟨fun heq => ⟨fun _ hp => absurd hp hs', fun _ _ => (ha _ _).mpr heq, fun hn => absurd hs hn,
      fun hn => absurd hs hn⟩, fun hal => (ha _ _).mp (hal.first hs hs')⟩
  · exact ⟨fun heq => ⟨fun hp => absurd hp hs, fun hp => absurd hp hs, fun _ _ => (ha' _ _).mpr heq.symm,
      fun _ hn => absurd hs' hn⟩, fun hal => ((ha' _ _).mp (hal.second hs hs')).symm⟩
  · exact ⟨fun heq => ⟨fun hp => absurd hp hs, fun hp => absurd hp hs, fun _ hp => absurd hp hs',
      fun _ _ => Dims.sides_inj.mp heq⟩, fun hal => congrArg Dims.sides (hal.neither hs hs')⟩

theorem endsAt_unique {scaled : Prop} {asked t t' : ℕ × ℕ} {left : Dims} (h : EndsAt scaled asked left t)
    (h' : EndsAt scaled asked left t') : t = t' := by
  rcases h with ⟨hs, rfl⟩ | ⟨hs, rfl⟩ <;> rcases h' with ⟨hs', rfl⟩ | ⟨hs', rfl⟩
  · rfl
  · exact absurd hs hs'
  · exact absurd hs' hs
  · rfl

theorem eq_of_samePixels (hp : SamePixels size size') (ht : target (some 0) size full = target (some 0) size' full)
    (cap : Option ℕ) (d : Dims) : target cap size d = target cap size' d ∧ exponent cap size d = exponent cap size' d ∧
      (HalvingExact cap size d ↔ HalvingExact cap size' d) := by
  obtain ⟨hkn, hp⟩ := hp
  unfold target at ht
  rcases hp with hk | hk | hk <;> have hk' := hkn.symm.trans hk <;>
    simp only [hk, hk', Prod.mk.injEq] at ht <;> obtain ⟨h₁, h₂⟩ := ht
  · simp only [target, exponent, HalvingExact, OnlyEnlarges, hk, hk', h₁, h₂, and_self]
  · simp only [target, exponent, HalvingExact, hk, hk', h₁, and_self]
  · simp only [target, exponent, HalvingExact, hk, hk', h₂, and_self]

section
variable {region region' : Region} {roi : Dims} {t t' : ℕ × ℕ}

theorem maxReduce_congr (hreg : region.kind = .full ↔ region'.kind = .full) :
    source.maxReduce region' = source.maxReduce region := by
  cases source <;> simp [Source.maxReduce, hreg]

theorem halvings_congr (hreg : region.kind = .full ↔ region'.kind = .full) :
    source.halvings region' size roi = source.halvings region size roi := by
  cases source <;> simp [Source.halvings, hreg]

theorem eq_of_leaves (hv : SizeParts.Valid size) (hv' : SizeParts.Valid size') (hf : size.kind ≠ .full)
    (ht : target (some 0) size full = target (some 0) size' full) (hp : SamePixels size size')
    (hc : SameCut source region region') (hreg : region.kind = .full ↔ region'.kind = .full)
    (h : Leaves full source region size roi t) (h' : Leaves full source region' size' roi t') : t = t' := by
  have heq := eq_of_samePixels hp ht
  have hb : ∀ b cap d, Broad b cap size' d ↔ Broad b cap size d := fun b cap d => by
    rw [broad_iff hv, broad_iff hv', (heq cap d).1]
  have hex : ∀ cap d, exponent cap size' d = exponent cap size d := fun cap d => (heq cap d).2.1.symm
  have hta : ∀ cap d, target cap size' d = target cap size d := fun cap d => (heq cap d).1.symm
  have hhe : ∀ cap d, HalvingExact cap size' d ↔ HalvingExact cap size d := fun cap d => (heq cap d).2.2.symm
  unfold Leaves at h h'
  rw [if_neg hf] at h
  rw [if_neg (hp.1 ▸ hf), maxReduce_congr hreg, halvings_congr hreg] at h'
  cases source with
  | tiff levels clevels =>
    obtain rfl : region = region' := hc
    simp only [hb, hta, levelCrop, hex] at h h'
    obtain ⟨-, rect, hr, he⟩ := h
    obtain ⟨-, rect', hr', he'⟩ := h'
    cases hr.symm.trans hr'
    exact endsAt_unique he he'
  | jp2 levels clevels =>
    simp only [hb, hta, Source.halvings, Source.Told, hex, hhe] at h h'
    exact endsAt_unique h.2 h'.2
  | jpeg =>
    simp only [hb, hta, Source.halvings, Source.Told, hex] at h h'
    exact endsAt_unique h.2 h'.2
  | png =>
    simp only [hb, hta, Source.halvings, Source.Told] at h h'
    exact endsAt_unique h.2 h'.2

theorem leaves_eq_iff (hv : SizeParts.Valid size) (hv' : SizeParts.Valid size')
    (hk : size.kind = .full ↔ size'.kind = .full)
    (hn : size.kind ≠ .full → target (some 0) size full = target (some 0) size' full)
    (hreg : region.kind = .full ↔ region'.kind = .full) (h : Leaves full source region size roi t)
    (h' : Leaves full source region' size' roi t') :
    t = t' ↔ SizesAgree full source region region' size size' roi := by
  unfold SizesAgree
  by_cases hs : size.kind ≠ .full ∧ SamePixels size size' ∧ SameCut source region region'
  · obtain ⟨hf, hp, hc⟩ := hs
    exact iff_of_true (eq_of_leaves hv hv' hf (hn hf) hp hc hreg h h') fun _ hns => absurd ⟨hp, hc⟩ hns
  have ha := fun cap d w h => asks_iff hv cap d (w := w) (h := h)
  have ha' := fun cap d w h => asks_iff hv' cap d (w := w) (h := h)
  unfold Leaves at h h'
  by_cases hf : size.kind = .full
  · rw [if_pos hf] at h
    rw [if_pos (hk.mp hf)] at h'
    exact iff_of_true (h.symm.trans h') fun hnf => absurd hf hnf
  rw [if_neg hf] at h
  rw [if_neg (mt hk.mpr hf), maxReduce_congr hreg, halvings_congr hreg] at h'
  rw [forall_prop_of_true hf, forall_prop_of_true (not_and.mp hs hf)]
  cases source with
  | tiff levels clevels =>
    obtain ⟨-, rect, hr, he⟩ := h
    obtain ⟨-, rect', hr', he'⟩ := h'
    rw [endsAt_eq_iff (ha none full) (ha' none full) he he']
    constructor
    · intro hal crop crop' hc hc'
      cases hr.symm.trans hc
      cases hr'.symm.trans hc'
      exact hal
    · exact fun hal => hal rect rect' hr hr'
  | jp2 levels clevels => exact endsAt_eq_iff (ha _ roi) (ha' _ roi) h.2 h'.2
  | jpeg => exact endsAt_eq_iff (ha _ roi) (ha' _ roi) h.2 h'.2
  | png => exact endsAt_eq_iff (ha _ roi) (ha' _ roi) h.2 h'.2

end

theorem cropFound_none_iff (region : Region) (full : Dims) :
    cropFound region full = .ok none ↔ region.kind = .full := by
  unfold cropFound
  split
  · next hk => exact iff_of_true rfl hk
  · next hk =>
    refine iff_of_false ?_ hk
    split <;> simp

theorem rendering_eq_ok {effective : SizeParts} {ρ : Rendering}
    (he : effectiveSize full r.size r.restricted = .ok effective) (h : rendering full source r = .ok ρ) :
    ∃ found, cropFound r.region full = .ok found ∧ cropCoords r.region 1 full = .ok ρ.rect ∧
      ρ = ⟨found.getD ⟨0, 0, full⟩, ρ.out, r.rotation.mirror, r.rotation.angle, r.quality, r.format, r.watermark⟩ ∧
      Leaves full source r.region effective ρ.rect.dims ρ.out.sides := by
  obtain ⟨out, ho, h⟩ := bind_eq_ok.mp h
  obtain ⟨found, hf, h⟩ := bind_eq_ok.mp h
  cases h
  rw [mapError_eq_ok] at hf
  have hr := crop_of_cropFound hf
  exact ⟨found, hf, hr, rfl, read_of_decodeRestricted (r.effective_valid he) he hr ho⟩

end

/-! ### Keys that collide -/

def gallery : Place := ⟨txt "example.org", txt "iiif", txt "portrait.png", 0⟩

theorem parts_nonneg (n : Fin 16777216) : 0 ≤ (n.val : ℚ) / 2 ^ 19 := by positivity

theorem parts_mem (n : Fin 16777216) : single.Mem ((n.val : ℚ) / 2 ^ 19) := by
  refine ⟨n.val, -19, ?_, by decide, ?_⟩
  · rw [abs_of_nonneg (Int.natCast_nonneg _)]
    exact_mod_cast n.isLt
  · rw [zpow_neg, div_eq_mul_inv]
    rfl

theorem parts_lt (n : Fin 16777216) : (n.val : ℚ) / 2 ^ 19 < 2 ^ 63 := by
  have hn : (n.val : ℚ) < 16777216 := by exact_mod_cast n.isLt
  rw [div_lt_iff₀ (by norm_num)]
  exact hn.trans (by norm_num)

/-- A rotation by parts of a degree. -/
def turn (n : Fin 16777216) : Rotation := ⟨false, n.val / 2 ^ 19, parts_nonneg n, parts_mem n, parts_lt n⟩

/-- An unrestricted JPEG, turned a little. -/
def ask (region : Region) (size : SizeParts) (hv : SizeParts.Valid size) (parts : Fin 16777216) (watermark : Str) :
    ImageRequest :=
  ⟨txt "http", region, size, ⟨.undefined, false, 0, 0, 0, 0⟩, turn parts, .default, .jpg, watermark, hv,
    Or.inl ⟨rfl, rfl, rfl⟩⟩

theorem sixtyFourWide_valid : SizeParts.Valid sixtyFourWide := by
  show 0 < 64
  decide

/-- `64,128`. -/
def sixtyFourBy128 : SizeParts := ⟨.pixelsXy, false, 0, 0, 64, 128⟩

theorem sixtyFourBy128_valid : SizeParts.Valid sixtyFourBy128 := by
  show 0 < 64 ∧ 0 < 128
  decide

def stripInPercent : Region := ⟨.percents, 0, 0, 20, 100, by norm_num⟩

end Sipi.Serve
