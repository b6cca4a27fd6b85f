import Sipi.Theory.Pictures
import Sipi.Image.Blend

/-!
# Images in memory

`SipiImage` keeps an image as one block of interleaved samples, of eight or sixteen bits, and beside it the sides,
the channels and what they mean.
-/

namespace Sipi.Image

open Sipi.Theory

/-- `PhotometricInterpretation`. -/
inductive PhotometricInterpretation where
  | miniswhite
  | minisblack
  | rgb
  | palette
  | mask
  | separated
  | ycbcr
  | cielab
  | icclab
  | itulab
  | cfa
  | logl
  | logluv
  | linearraw
  | invalid
  deriving DecidableEq

/-- `ExtraSamples`. -/
inductive ExtraSamples where
  | unspecified
  | assocAlpha
  | unassAlpha
  deriving DecidableEq

/-- `Orientation`, with room for other values. -/
inductive Orientation where
  | topLeft
  | topRight
  | botRight
  | botLeft
  | leftTop
  | rightTop
  | rightBot
  | leftBot
  | other (value : ℕ)
  deriving DecidableEq

/-- `SipiImage`. -/
structure SipiImage where
  nx : ℕ
  ny : ℕ
  nc : ℕ
  bps : Depth
  photo : PhotometricInterpretation
  es : List ExtraSamples
  orientation : Orientation
  exif : Option (Option Orientation)
  pixels : Buffer ℕ

namespace SipiImage

/-- A sample for every channel of every pixel. -/
def Full (img : SipiImage) : Prop := img.pixels.size = img.nx * img.ny * img.nc

/-- No sample is larger than its bits allow. -/
def InScale (img : SipiImage) : Prop := ∀ p < img.pixels.size, img.pixels.get p ≤ img.bps.fullScale

/-- The image shows the picture. -/
structure Shows (img : SipiImage) (p : Picture (ℕ → ℕ)) : Prop where
  nx : img.nx = p.w
  ny : img.ny = p.h
  pixels : Depicts img.nc p img.pixels

/-- The picture that an image shows. -/
def picture (img : SipiImage) : Picture (ℕ → ℕ) := img.pixels.picture img.nx img.ny img.nc

variable {img : SipiImage}

theorem Full.shows (h : img.Full) : img.Shows img.picture := ⟨rfl, rfl, Buffer.depicts_picture h⟩

variable {p : Picture (ℕ → ℕ)}

theorem Shows.full (h : img.Shows p) : img.Full := by
  rw [Full, h.pixels.size, h.nx, h.ny]

/-- The same sides, channels and samples. -/
structure Alike (a b : SipiImage) : Prop where
  nx : a.nx = b.nx
  ny : a.ny = b.ny
  nc : a.nc = b.nc
  bps : a.bps = b.bps
  pixels : a.pixels.Same b.pixels

theorem Shows.alike {a b : SipiImage} (ha : a.Shows p) (hb : b.Shows p) (hnc : a.nc = b.nc)
    (hbp : a.bps = b.bps) : a.Alike b := by
  refine ⟨ha.nx.trans hb.nx.symm, ha.ny.trans hb.ny.symm, hnc, hbp, ha.pixels.same ?_⟩
  rw [hnc]
  exact hb.pixels

/-- The image with other sides and samples. -/
def withPixels (img : SipiImage) (nnx nny : ℕ) (out : Buffer ℕ) : SipiImage :=
  { img with nx := nnx, ny := nny, pixels := out }

/-- The loop that fills a new block. -/
def gather (img : SipiImage) (nnx nny : ℕ) (column row : ℕ → ℕ → ℕ) : Except ImageError SipiImage :=
  (fill .overrun 0 nnx nny img.nc fun i j k =>
    img.pixels.fetch .overrun (index img.nx img.nc (column i j) (row i j) k)).map (img.withPixels nnx nny)

theorem gather_shows (h : img.Shows p) (q : Picture (ℕ → ℕ)) {nnx nny : ℕ}
    (column row : ℕ → ℕ → ℕ) (hnx : nnx = q.w) (hny : nny = q.h)
    (hpl : ∀ x y, ∃ x' y', q.pixel x y = p.pixel x' y' ∧ column x y = x' ∧ row x y = y') :
    ∃ out, img.gather nnx nny column row = .ok (img.withPixels nnx nny out) ∧
      (img.withPixels nnx nny out).Shows q := by
  subst hnx hny
  have hfl := h.full
  obtain ⟨hpx, hpy, -, hs⟩ := h
  have he : Ends (fill ImageError.overrun 0 q.w q.h img.nc fun i j k =>
      img.pixels.fetch .overrun (index img.nx img.nc (column i j) (row i j) k))
      (Filled q.w q.h img.nc (fun x y c v => ∀ (hx : x < q.w) (hy : y < q.h), v = q.pixel ⟨x, hx⟩ ⟨y, hy⟩ c)
        (q.w * q.h * img.nc)) fun _ => False := by
    refine fill_ends fun x hx y hy c hc => ?_
    obtain ⟨x', y', hp, hcl, hr⟩ := hpl ⟨x, hx⟩ ⟨y, hy⟩
    dsimp only at hcl hr
    have hlt : index img.nx img.nc (column x y) (row x y) c < img.pixels.size := by
      rw [hcl, hr, hfl, hpx, hpy]
      exact index_lt x'.isLt y'.isLt hc
    rw [Buffer.fetch_of_lt _ hlt]
    intro _ _
    rw [hp, hcl, hr, hpx, hs x' y' c hc]
  obtain ⟨out, ho, hf⟩ := he.exists_ok
  refine ⟨out, by rw [gather, ho]; rfl, rfl, rfl, hf.size, fun x y c hc => ?_⟩
  exact hf.get x.isLt y.isLt hc x.isLt y.isLt

end SipiImage

end Sipi.Image
