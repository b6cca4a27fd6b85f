import Sipi.Image.Raster

/-!
# Bitonal images

`SipiImage::toBitonal` in `src/SipiImage.cpp` converts an image to one gray channel of eight bits by its colour
profile, and then spreads the error of every pixel over the pixels after it (Floyd and Steinberg).
-/

namespace Sipi.Image

open Sipi.Theory

/-- What goes wrong. -/
inductive BitonalError where
  | icc
  | overrun
  deriving DecidableEq

/-- A value stored in a `short`. -/
def short (v : ℤ) : ℤ := v.bmod (2 ^ 16)

/-- `outbuf[r] += err`. -/
def spread (r : ℕ) (err : ℤ) (outbuf : Buffer ℤ) : Except BitonalError (Buffer ℤ) := do
  let v ← outbuf.fetch .overrun r
  outbuf.put .overrun r (short (v + err))

/-- The same, under a condition. -/
def spreadIf (c : Bool) (r : ℕ) (err : ℤ) (outbuf : Buffer ℤ) : Except BitonalError (Buffer ℤ) :=
  if c then spread r err outbuf else .ok outbuf

/-- The body of the loop: one pixel. -/
def ditherPixel (nx ny x y : ℕ) (outbuf : Buffer ℤ) : Except BitonalError (Buffer ℤ) := do
  let oldpixel ← outbuf.fetch .overrun (y * nx + x)
  let newpixel : ℤ := if 127 < oldpixel then 255 else 0
  let properr := oldpixel - newpixel
  let outbuf ← outbuf.put .overrun (y * nx + x) newpixel
  let outbuf ← spreadIf (x < nx - 1) (y * nx + (x + 1)) (7 * properr / 16) outbuf
  let outbuf ← spreadIf (0 < x && y < ny - 1) ((y + 1) * nx + (x - 1)) (3 * properr / 16) outbuf
  let outbuf ← spreadIf (y < ny - 1) ((y + 1) * nx + x) (5 * properr / 16) outbuf
  spreadIf (x < nx - 1 && y < ny - 1) ((y + 1) * nx + (x + 1)) (properr / 16) outbuf

/-- The loop. -/
def dither (nx ny : ℕ) (outbuf : Buffer ℤ) : Except BitonalError (Buffer ℤ) :=
  forPixels nx ny (ditherPixel nx ny) outbuf

/-! ### The conversion 
-/

namespace SipiImage

/-- The interpretations taken for gray. -/
def IsGray (img : SipiImage) : Prop := img.photo = .minisblack ∨ img.photo = .miniswhite

instance (img : SipiImage) : Decidable img.IsGray := inferInstanceAs (Decidable (_ ∨ _))

/-- `pixels.data()`, the lower byte first. -/
def data (img : SipiImage) : Buffer ℕ :=
  match img.bps with
  | .eight => img.pixels
  | .sixteen =>
    ⟨2 * img.pixels.size, fun p => img.pixels.get (p / 2) / 256 ^ (p % 2) % 256⟩

/-- The image with other bytes. -/
def withData (img : SipiImage) (bytes : Buffer ℕ) : SipiImage :=
  match img.bps with
  | .eight => { img with pixels := bytes }
  | .sixteen => { img with pixels := ⟨bytes.size / 2, fun p => bytes.get (2 * p) + 256 * bytes.get (2 * p + 1)⟩ }

section
variable (gray : SipiImage → Option (ℕ → UInt8))

/-- The image with one gray channel of eight bits. -/
def withGray (img : SipiImage) (level : ℕ → UInt8) : SipiImage :=
  { img with
    nc := 1
    bps := .eight
    photo := .minisblack
    pixels := ⟨img.nx * img.ny * 1, fun p => (level p).toNat⟩ }

/-- `convertToIcc(Icc(icc_GRAY_D50), 8)`. -/
def convertToGray (img : SipiImage) : Except BitonalError SipiImage :=
  match gray img with
  | none => .error .icc
  | some level => .ok (img.withGray level)

/-- The first loop: whether there is something to do. -/
def needsDither (img : SipiImage) : Except BitonalError Bool :=
  forRange (fun i doit => do
    let v ← img.data.fetch .overrun i
    return doit || (v ≠ 0 && v ≠ 255)) (img.nx * img.ny) 0 false

/-- The loops that copy, dither and copy back. -/
def dithered (img : SipiImage) : Except BitonalError SipiImage := do
  let outbuf ← forRange (fun i outbuf => do
    let v ← img.data.fetch .overrun i
    outbuf.put .overrun i (v : ℤ)) (img.nx * img.ny) 0 (.const (img.nx * img.ny) 0)
  let outbuf ← dither img.nx img.ny outbuf
  let bytes ← forRange (fun i bytes => do
    let v ← outbuf.fetch .overrun i
    bytes.put .overrun i (v % 256).toNat) (img.nx * img.ny) 0 img.data
  return img.withData bytes

/-- `SipiImage::toBitonal`. -/
def toBitonal (img : SipiImage) : Except BitonalError SipiImage := do
  let img ← if img.IsGray then .ok img else img.convertToGray gray
  let doit ← img.needsDither
  if doit then img.dithered else .ok img

end

/-- **A bitonal image**: black or white. -/
structure IsBitonal (img : SipiImage) : Prop where
  /-- Eight bits. -/
  bps : img.bps = .eight
  /-- The samples. -/
  full : img.Full
  /-- Black or white. -/
  tone : ∀ p < img.nx * img.ny * img.nc, img.pixels.get p = 0 ∨ img.pixels.get p = 255

end SipiImage

/-! ### What the loops do -/

variable {nx ny : ℕ}

/-- The pixels before `q` are black or white. -/
structure Tonal (n q : ℕ) (outbuf : Buffer ℤ) : Prop where
  size : outbuf.size = n
  tone : ∀ p < q, outbuf.get p = 0 ∨ outbuf.get p = 255

variable {n : ℕ} {outbuf : Buffer ℤ}

theorem spread_keeps {q r : ℕ} (h : Tonal n q outbuf) (hr : q ≤ r) (hlt : r < n) (err : ℤ) :
    Ends (spread r err outbuf) (Tonal n q) fun _ => False := by
  have hrm : r < outbuf.size := by rwa [h.size]
  rw [spread, Buffer.fetch_of_lt _ hrm, ok_bind, Buffer.put_of_lt _ hrm]
  refine ⟨h.size, fun p hp => ?_⟩
  rw [Buffer.get_set_of_ne _ (by omega)]
  exact h.tone p hp

theorem spreadIf_keeps {q r : ℕ} {c : Bool} (h : Tonal n q outbuf)
    (hc : c = true → q ≤ r ∧ r < n) (err : ℤ) : Ends (spreadIf c r err outbuf) (Tonal n q) fun _ => False := by
  unfold spreadIf
  split_ifs with ht
  · exact spread_keeps h (hc ht).1 (hc ht).2 err
  · exact h

theorem ditherPixel_ends {x y : ℕ} (hx : x < nx) (hy : y < ny) (h : Tonal (nx * ny) (y * nx + x) outbuf) :
    Ends (ditherPixel nx ny x y outbuf) (Tonal (nx * ny) (y * nx + x + 1)) fun _ => False := by
  have hr : y * nx + x < outbuf.size := by
    rw [h.size]
    exact place_lt hx hy
  have hn : (y + 1) * nx = y * nx + nx := Nat.succ_mul y nx
  rw [ditherPixel, Buffer.fetch_of_lt _ hr, ok_bind]
  dsimp only
  rw [Buffer.put_of_lt _ hr, ok_bind]
  have hs : ∀ v : ℤ, v = 0 ∨ v = 255 →
      Tonal (nx * ny) (y * nx + x + 1) (outbuf.set (y * nx + x) v) := by
    intro v hv
    refine ⟨h.size, fun p hp => ?_⟩
    by_cases hl : p = y * nx + x
    · rwa [hl, Buffer.get_set_self]
    · rw [Buffer.get_set_of_ne _ hl]
      exact h.tone p (by omega)
  refine (spreadIf_keeps (hs _ ?_) ?_ _).bind fun out ho => ?_
  · split_ifs <;> simp
  · intro hc
    have hrg : x + 1 < nx := by simp only [decide_eq_true_eq] at hc; omega
    exact ⟨by omega, place_lt hrg hy⟩
  refine (spreadIf_keeps ho ?_ _).bind fun out ho => (spreadIf_keeps ho ?_ _).bind fun out ho =>
    spreadIf_keeps ho ?_ _
  · intro hc
    simp only [Bool.and_eq_true, decide_eq_true_eq] at hc
    exact ⟨by omega, place_lt (by omega) (by omega)⟩
  · intro hc
    simp only [decide_eq_true_eq] at hc
    exact ⟨by omega, place_lt hx (by omega)⟩
  · intro hc
    simp only [Bool.and_eq_true, decide_eq_true_eq] at hc
    exact ⟨by omega, place_lt (by omega) (by omega)⟩

theorem dither_ends (h : outbuf.size = nx * ny) :
    Ends (dither nx ny outbuf) (Tonal (nx * ny) (nx * ny)) fun _ => False :=
  forPixels_ends (Tonal (nx * ny)) ⟨h, fun _ hp => absurd hp (Nat.not_lt_zero _)⟩
    fun _ hx _ hy _ => ditherPixel_ends hx hy

namespace SipiImage

variable {img : SipiImage}

theorem Full.le_data (hf : img.Full) (hnc : 0 < img.nc) : img.nx * img.ny ≤ img.data.size := by
  have hle : img.nx * img.ny ≤ img.nx * img.ny * img.nc := Nat.le_mul_of_pos_right _ hnc
  rw [← hf] at hle
  unfold data
  cases img.bps with
  | eight => exact hle
  | sixteen => exact hle.trans (Nat.le_mul_of_pos_left _ (by decide))

theorem needsDither_ends (hdt : img.nx * img.ny ≤ img.data.size) :
    Ends img.needsDither (fun doit => doit = false → ∀ p < img.nx * img.ny,
      img.data.get p = 0 ∨ img.data.get p = 255) fun _ => False := by
  refine forCount_ends (fun q doit => doit = false → ∀ p < q, img.data.get p = 0 ∨ img.data.get p = 255)
    (fun _ p hp => absurd hp (Nat.not_lt_zero p)) fun i doit hi hd => ?_
  rw [Buffer.fetch_of_lt _ (by omega), ok_bind]
  intro hn p hp
  obtain ⟨hd', hv⟩ := Bool.or_eq_false_iff.mp hn
  rcases Nat.lt_succ_iff_lt_or_eq.mp hp with hlt | rfl
  · exact hd hd' p hlt
  · by_contra ho
    rw [not_or] at ho
    simp [ho.1, ho.2] at hv

/-- What `toBitonal` makes without a conversion. -/
structure Toned (img out : SipiImage) : Prop where
  bps : out.bps = img.bps
  nx : out.nx = img.nx
  ny : out.ny = img.ny
  nc : out.nc = img.nc
  size : img.bps = .eight → out.pixels.size = img.pixels.size
  tone : img.bps = .eight → ∀ p < img.nx * img.ny, out.pixels.get p = 0 ∨ out.pixels.get p = 255
  rest : img.bps = .eight → ∀ p, img.nx * img.ny ≤ p → out.pixels.get p = img.pixels.get p

/-- The bytes that are copied back. -/
structure CopiedBack (outbuf : Buffer ℤ) (before : Buffer ℕ) (q : ℕ) (bytes : Buffer ℕ) : Prop where
  size : bytes.size = before.size
  done : ∀ p < q, bytes.get p = (outbuf.get p % 256).toNat
  rest : ∀ p, q ≤ p → bytes.get p = before.get p

theorem copyOut_ends {bytes : Buffer ℕ} (hr : n ≤ bytes.size) :
    Ends (forRange (fun i outbuf => do
        let v ← bytes.fetch BitonalError.overrun i
        outbuf.put .overrun i (v : ℤ)) n 0 (.const n 0)) (fun outbuf : Buffer ℤ => outbuf.size = n) fun _ => False := by
  refine forCount_ends (fun _ (outbuf : Buffer ℤ) => outbuf.size = n) rfl fun i outbuf hi hs => ?_
  rw [Buffer.fetch_of_lt _ (by omega), ok_bind, Buffer.put_of_lt _ (by rwa [hs])]
  exact hs

theorem copyBack_ends {before : Buffer ℕ} (hs : outbuf.size = n) (hr : n ≤ before.size) :
    Ends (forRange (fun i bytes => do
        let v ← outbuf.fetch BitonalError.overrun i
        bytes.put .overrun i (v % 256).toNat) n 0 before) (CopiedBack outbuf before n) fun _ => False := by
  refine forCount_ends (CopiedBack outbuf before)
    ⟨rfl, fun p hp => absurd hp (Nat.not_lt_zero p), fun _ _ => rfl⟩ fun i bytes hi hb => ?_
  rw [Buffer.fetch_of_lt _ (by rwa [hs]), ok_bind, Buffer.put_of_lt _ (by rw [hb.size]; omega)]
  refine ⟨hb.size, fun p hp => ?_, fun p hp => ?_⟩
  · by_cases hl : p = i
    · rw [hl, Buffer.get_set_self]
    · rw [Buffer.get_set_of_ne _ hl]
      exact hb.done p (by omega)
  · rw [Buffer.get_set_of_ne _ (by omega)]
    exact hb.rest p (by omega)

theorem CopiedBack.toned {bytes : Buffer ℕ} (hb : CopiedBack outbuf img.data (img.nx * img.ny) bytes)
    (ht : Tonal (img.nx * img.ny) (img.nx * img.ny) outbuf) : Toned img (img.withData bytes) := by
  have htn : ∀ p < img.nx * img.ny, bytes.get p = 0 ∨ bytes.get p = 255 := by
    intro p hp
    rw [hb.done p hp]
    rcases ht.tone p hp with hz | hf
    · exact Or.inl (by rw [hz]; rfl)
    · exact Or.inr (by rw [hf]; rfl)
  cases hbp : img.bps with
  | eight =>
    have ho : img.withData bytes = { img with pixels := bytes } := by rw [withData, hbp]
    have hin : img.data = img.pixels := by rw [data, hbp]
    rw [ho]
    rw [hin] at hb
    exact ⟨rfl, rfl, rfl, rfl, fun _ => hb.size, fun _ => htn, fun _ => hb.rest⟩
  | sixteen =>
    have hn : ¬ img.bps = .eight := by simp [hbp]
    have ho : ∃ pixels, img.withData bytes = { img with pixels := pixels } := ⟨_, by rw [withData, hbp]⟩
    obtain ⟨pixels, ho⟩ := ho
    rw [ho]
    exact ⟨rfl, rfl, rfl, rfl, fun h => absurd h hn, fun h => absurd h hn, fun h => absurd h hn⟩

theorem dithered_ends (hd : img.nx * img.ny ≤ img.data.size) : Ends img.dithered (Toned img) fun _ => False := by
  refine (copyOut_ends hd).bind fun outbuf hs => (dither_ends hs).bind fun outbuf ht => ?_
  refine (copyBack_ends ht.size hd).bind fun bytes hb => ?_
  exact hb.toned ht

theorem toBitonal_ends (gray : SipiImage → Option (ℕ → UInt8)) (hg : img.IsGray) (hf : img.Full)
    (hnc : 0 < img.nc) : Ends (img.toBitonal gray) (Toned img) fun _ => False := by
  have hd := hf.le_data hnc
  rw [toBitonal, if_pos hg, ok_bind]
  refine (needsDither_ends hd).bind fun doit hdt => ?_
  split_ifs with hn
  · exact dithered_ends hd
  · refine ⟨rfl, rfl, rfl, rfl, fun _ => rfl, fun hbp => ?_, fun _ _ _ => rfl⟩
    have hb := hdt (Bool.eq_false_iff.mpr hn)
    rwa [data, hbp] at hb

theorem toBitonal_of_none {gray : SipiImage → Option (ℕ → UInt8)} (hg : ¬ img.IsGray) (hl : gray img = none) :
    img.toBitonal gray = .error .icc := by
  rw [toBitonal, if_neg hg, convertToGray, hl]
  rfl

theorem toBitonal_of_some {gray : SipiImage → Option (ℕ → UInt8)} (hg : ¬ img.IsGray) {level : ℕ → UInt8}
    (hl : gray img = some level) : img.toBitonal gray = (img.withGray level).toBitonal gray := by
  have hg' : (img.withGray level).IsGray := Or.inl rfl
  rw [toBitonal, toBitonal, if_neg hg, if_pos hg', convertToGray, hl]

theorem Toned.bitonal_iff {out : SipiImage} (h : Toned img out) (hf : img.Full) :
    out.IsBitonal ↔ img.bps = .eight ∧
      ∀ p, img.nx * img.ny ≤ p → p < img.nx * img.ny * img.nc → img.pixels.get p = 0 ∨ img.pixels.get p = 255 := by
  constructor
  · rintro ⟨hb, -, ht⟩
    rw [h.bps] at hb
    refine ⟨hb, fun p hle hlt => ?_⟩
    rw [h.nx, h.ny, h.nc] at ht
    rw [← h.rest hb p hle]
    exact ht p hlt
  · rintro ⟨hb, hr⟩
    refine ⟨h.bps.trans hb, ?_, fun p hp => ?_⟩
    · rw [Full, h.size hb, h.nx, h.ny, h.nc, hf]
    · rw [h.nx, h.ny, h.nc] at hp
      rcases Nat.lt_or_ge p (img.nx * img.ny) with hlt | hge
      · exact h.tone hb p hlt
      · rw [h.rest hb p hge]
        exact hr p hge hp

/-- **When `toBitonal` gives a bitonal image**: it is converted, or has eight bits and nothing but black and
white behind the bytes that are dithered. -/
theorem isBitonal_iff (gray : SipiImage → Option (ℕ → UInt8)) (img : SipiImage) (hfull : img.Full)
    (hnc : 0 < img.nc) :
    (∀ out, img.toBitonal gray = .ok out → out.IsBitonal) ↔
      (img.IsGray → img.bps = .eight ∧
        ∀ p, img.nx * img.ny ≤ p → p < img.nx * img.ny * img.nc →
          img.pixels.get p = 0 ∨ img.pixels.get p = 255) := by
  by_cases hg : img.IsGray
  · obtain ⟨out, ho, ht⟩ := (toBitonal_ends gray hg hfull hnc).exists_ok
    rw [← ht.bitonal_iff hfull]
    constructor
    · intro h _
      exact h out ho
    · intro h out' ho'
      cases ho.symm.trans ho'
      exact h hg
  · refine iff_of_true (fun out ho => ?_) fun h => absurd h hg
    cases hl : gray img with
    | none =>
      rw [toBitonal_of_none hg hl] at ho
      cases ho
    | some level =>
      rw [toBitonal_of_some hg hl] at ho
      have hm : (img.withGray level).Full := rfl
      have ht := (toBitonal_ends gray (Or.inl rfl) hm Nat.one_pos).of_ok ho
      refine (ht.bitonal_iff hm).mpr ⟨rfl, fun p hle hlt => ?_⟩
      rw [withGray, Nat.mul_one] at hlt
      exact absurd hlt (Nat.not_lt.mpr hle)

/-- A gray image of one row. -/
def grayRow (nx nc : ℕ) (bps : Depth) (sample : ℕ → ℕ) : SipiImage :=
  ⟨nx, 1, nc, bps, .minisblack, .replicate (nc - 1) .unassAlpha, .topLeft, none, ⟨nx * nc, sample⟩⟩

theorem isBitonal_two_pixels :
    (grayRow 2 1 .eight (100 + ·)).Full ∧
      ∀ out, (grayRow 2 1 .eight (100 + ·)).toBitonal (fun _ => none) = .ok out → out.IsBitonal := by
  have hf : (grayRow 2 1 .eight (100 + ·)).Full := rfl
  refine ⟨hf, (isBitonal_iff _ _ hf Nat.one_pos).mpr fun _ => ⟨rfl, fun p hle hlt => ?_⟩⟩
  exact absurd hlt (Nat.not_lt.mpr hle)

theorem gray_not_bitonal :
    (¬ ∀ out, (grayRow 1 2 .eight fun _ => 100).toBitonal (fun _ => none) = .ok out → out.IsBitonal) ∧
      ¬ ∀ out, (grayRow 1 1 .sixteen fun _ => 1000).toBitonal (fun _ => none) = .ok out → out.IsBitonal := by
  constructor
  · intro h
    obtain ⟨out, ho, hs, hg⟩ : ∃ out, (grayRow 1 2 .eight fun _ => 100).toBitonal (fun _ => none) = .ok out ∧
        1 < out.nx * out.ny * out.nc ∧ out.pixels.get 1 = 100 := ⟨_, rfl, by decide, by decide⟩
    have ht := (h out ho).tone 1 hs
    rw [hg] at ht
    exact absurd ht (by decide)
  · intro h
    obtain ⟨out, ho, hb⟩ : ∃ out, (grayRow 1 1 .sixteen fun _ => 1000).toBitonal (fun _ => none) = .ok out ∧
        out.bps = .sixteen := ⟨_, rfl, rfl⟩
    have height := (h out ho).bps
    rw [hb] at height
    cases height

/-- `SipiImage::to8bps`. -/
def to8bps (img : SipiImage) : Except BitonalError SipiImage :=
  match img.bps with
  | .eight => .ok img
  | .sixteen =>
    (fill .overrun 0 img.nx img.ny img.nc fun i j k =>
      (img.pixels.fetch .overrun (index img.nx img.nc i j k)).map (· / 256)).map fun outbuf =>
        { img with bps := .eight, pixels := outbuf }

theorem to8bps_block (hf : img.Full) :
    Ends img.to8bps (fun out => ∃ pixels, out = { img with bps := .eight, pixels := pixels } ∧
      pixels.size = img.pixels.size) fun _ => False := by
  cases hb : img.bps with
  | eight =>
    rw [to8bps, hb]
    exact ⟨img.pixels, by rw [← hb], rfl⟩
  | sixteen =>
    have hfl : Ends (fill BitonalError.overrun 0 img.nx img.ny img.nc fun i j k =>
        (img.pixels.fetch .overrun (index img.nx img.nc i j k)).map (· / 256))
        (Filled img.nx img.ny img.nc (fun _ _ _ _ => True) (img.nx * img.ny * img.nc)) fun _ => False := by
      refine fill_ends fun x hx y hy c hc => ?_
      have hlt : index img.nx img.nc x y c < img.pixels.size := by
        rw [hf]
        exact index_lt hx hy hc
      rw [Buffer.fetch_of_lt _ hlt]
      exact trivial
    rw [to8bps, hb]
    exact hfl.map fun out ho => ⟨out, rfl, ho.size.trans hf.symm⟩

end SipiImage

end Sipi.Image
