import Sipi.Image.Resample
import Sipi.Theory.Fallible
import Mathlib.Order.Lattice.Nat

/-!
# The difference of two images

`SipiImage::operator-=` of `src/SipiImage.cpp` makes an image of the difference of two: the largest difference
becomes black or white, and no difference becomes middle gray.
-/

namespace Sipi.Image

open Sipi.Theory

/-- `as_integer(photo)`. -/
def PhotometricInterpretation.asInteger : PhotometricInterpretation → ℕ
  | .miniswhite => 0
  | .minisblack => 1
  | .rgb => 2
  | .palette => 3
  | .mask => 4
  | .separated => 5
  | .ycbcr => 6
  | PhotometricInterpretation.cielab => 8
  | .icclab => 9
  | .itulab => 10
  | .cfa => 32803
  | .logl => 32844
  | .logluv => 32845
  | .linearraw => 34892
  | .invalid => 65535

/-- The number of bits. -/
def Depth.count : Depth → ℕ
  | .eight => 8
  | .sixteen => 16

/-- What goes wrong. -/
inductive DiffError where
  | notCompatible (nc : ℕ) (bps : Depth) (photo : PhotometricInterpretation) (nc' : ℕ) (bps' : Depth)
      (photo' : PhotometricInterpretation)
  | scaling (e : ScaleError)
  | overrun
  | overflow
  | divideByZero
  deriving DecidableEq

/-- A line of the message. -/
def DiffError.line (nc : ℕ) (bps : Depth) (photo : PhotometricInterpretation) : String :=
  "nc: " ++ toString nc ++ " bps: " ++ toString bps.count ++ " photo: " ++ toString photo.asInteger ++ "\n"

/-- The text of the error. -/
def DiffError.message : DiffError → String
  | .notCompatible nc bps photo nc' bps' photo' =>
    "Image op: images not compatible\n" ++ "Image 1:  " ++ line nc bps photo ++ "Image 2:  " ++ line nc' bps' photo'
  | _ => ""

/-- A number in an `int`. -/
def inInt (v : ℤ) : Except DiffError ℤ := if InInt32 v then .ok v else .error .overflow

/-- `abs(min) > abs(max) ? abs(min) : abs(max)`. -/
def maxmax (min max : ℤ) : Except DiffError ℤ := do
  let low ← inInt |min|
  let high ← inInt |max|
  return if high < low then low else high

/-- A difference, moved to the scale. -/
def rescale (bps : Depth) (d maxmax : ℤ) : Except DiffError ℕ := do
  let sum ← inInt (d + maxmax)
  let product ← inInt (sum * bps.fullScale)
  let span ← inInt (2 * maxmax)
  if span = 0 then .error .divideByZero
  else return (product.tdiv span % (bps.fullScale + 1)).toNat

namespace SipiImage

/-- The loop that fills `dbuf`. -/
def differences (img rhs : SipiImage) : Except DiffError (Buffer ℤ) :=
  forSamples img.nx img.ny img.nc (fun i j k dbuf => do
    let l ← img.pixels.fetch .overrun (index img.nx img.nc i j k)
    let r ← rhs.pixels.fetch .overrun (index img.nx img.nc i j k)
    if l = r then .ok dbuf else dbuf.put .overrun (index img.nx img.nc i j k) ((l : ℤ) - r))
    (.const (img.nx * img.ny * img.nc) 0)

/-- The loop that finds `min` and `max`. -/
def extremes (img : SipiImage) (dbuf : Buffer ℤ) : Except DiffError (ℤ × ℤ) :=
  forSamples img.nx img.ny img.nc (fun i j k found => do
    let d ← dbuf.fetch .overrun (index img.nx img.nc i j k)
    return (if d < found.1 then d else found.1, if found.2 < d then d else found.2)) (2 ^ 31 - 1, -2 ^ 31)

/-- The loop that fills the image. -/
def rescaled (img : SipiImage) (dbuf : Buffer ℤ) (maxmax : ℤ) : Except DiffError (Buffer ℕ) :=
  forSamples img.nx img.ny img.nc (fun i j k ltmp => do
    let d ← dbuf.fetch .overrun (index img.nx img.nc i j k)
    let v ← rescale img.bps d maxmax
    ltmp.put .overrun (index img.nx img.nc i j k) v) img.pixels

/-- `SipiImage::operator-=`. -/
def subAssign (img rhs : SipiImage) : Except DiffError SipiImage :=
  if img.nc ≠ rhs.nc ∨ img.bps ≠ rhs.bps ∨ img.photo ≠ rhs.photo then
    .error (.notCompatible img.nc img.bps img.photo rhs.nc rhs.bps rhs.photo)
  else do
    let rhs ← if img.nx ≠ rhs.nx ∨ img.ny ≠ rhs.ny then ((rhs.scale img.nx img.ny).mapError .scaling).map Prod.snd
      else .ok rhs
    let dbuf ← img.differences rhs
    let found ← img.extremes dbuf
    let largest ← maxmax found.1 found.2
    let ltmp ← img.rescaled dbuf largest
    return { img with pixels := ltmp }

/-- `SipiImage::operator==`. -/
def equals (img rhs : SipiImage) : Except DiffError Bool :=
  if img.nx ≠ rhs.nx ∨ img.ny ≠ rhs.ny ∨ img.nc ≠ rhs.nc ∨ img.bps ≠ rhs.bps ∨ img.photo ≠ rhs.photo then .ok false
  else do
    let nDifferences ← forSamples img.nx img.ny img.nc (fun i j k n => do
      let l ← img.pixels.fetch .overrun (index img.nx img.nc i j k)
      let r ← rhs.pixels.fetch .overrun (index img.nx img.nc i j k)
      return if l = r then n else n + 1) 0
    return nDifferences ≤ 0

end SipiImage

theorem inInt_eq_ok_iff {v w : ℤ} : inInt v = .ok w ↔ InInt32 v ∧ v = w := by
  unfold inInt
  split_ifs with h <;> simp [h]

theorem rescale_eq_ok_iff {bps : Depth} {d m : ℤ} {v : ℕ} (hm : 0 < m) (hsc : m ≤ bps.fullScale)
    (hd : -m ≤ d ∧ d ≤ m) :
    rescale bps d m = .ok v ↔ (d + m) * bps.fullScale < 2 ^ 31 ∧ (v : ℤ) = (d + m) * bps.fullScale / (2 * m) := by
  have hfl : (bps.fullScale : ℤ) ≤ 65535 := by cases bps <;> decide
  have hpr : 0 ≤ (d + m) * bps.fullScale := mul_nonneg (by omega) (Nat.cast_nonneg _)
  have hq : (d + m) * bps.fullScale / (2 * m) ≤ bps.fullScale := by
    refine Int.ediv_le_of_le_mul (by omega) ?_
    rw [mul_comm]
    exact mul_le_mul_of_nonneg_left (by omega) (Nat.cast_nonneg _)
  have hp : 0 ≤ (d + m) * bps.fullScale / (2 * m) := Int.ediv_nonneg hpr (by omega)
  have hvl : ((d + m) * bps.fullScale).tdiv (2 * m) % (bps.fullScale + 1) = (d + m) * bps.fullScale / (2 * m) := by
    rw [Int.tdiv_eq_ediv_of_nonneg hpr, Int.emod_eq_of_lt hp (by omega)]
  have hs : ¬ 2 * m = 0 := by omega
  simp only [rescale, bind_eq_ok, inInt_eq_ok_iff]
  constructor
  · rintro ⟨_, ⟨-, rfl⟩, _, ⟨hf, rfl⟩, _, ⟨-, rfl⟩, h⟩
    rw [if_neg hs, hvl] at h
    refine ⟨hf.2, ?_⟩
    rw [← Except.ok.inj h, Int.toNat_of_nonneg hp]
  · rintro ⟨hf, hv⟩
    refine ⟨_, ⟨⟨by omega, by omega⟩, rfl⟩, _, ⟨⟨by omega, hf⟩, rfl⟩, _, ⟨⟨by omega, by omega⟩, rfl⟩, ?_⟩
    rw [if_neg hs, hvl, ← hv, Int.toNat_natCast]
    rfl

theorem product_fits_iff {bps : Depth} {d m : ℤ} (hs : m ≤ bps.fullScale) (hd : d ≤ m) :
    (d + m) * bps.fullScale < 2 ^ 31 ↔ bps = .eight ∨ d + m ≤ 32768 := by
  cases bps with
  | eight =>
    rw [Depth.fullScale] at hs ⊢
    exact iff_of_true (by omega) (Or.inl rfl)
  | sixteen =>
    rw [Depth.fullScale]
    simp only [reduceCtorEq, false_or]
    omega

/-! ### The differences 
-/

namespace SipiImage

/-- The difference of two samples. -/
def signedDiff (img rhs : SipiImage) (p : ℕ) : ℤ := (img.pixels.get p : ℤ) - rhs.pixels.get p

/-- The largest absolute difference. -/
def largestDiff (img rhs : SipiImage) : ℕ :=
  (Finset.range img.pixels.size).sup fun p => (img.signedDiff rhs p).natAbs

/-- Two images that can be compared sample by sample. -/
structure Comparable (img rhs : SipiImage) : Prop where
  nx : img.nx = rhs.nx
  ny : img.ny = rhs.ny
  nc : img.nc = rhs.nc
  bps : img.bps = rhs.bps
  photo : img.photo = rhs.photo
  full : img.Full
  inScale : img.InScale
  full' : rhs.Full
  inScale' : rhs.InScale

section
variable {img rhs : SipiImage}

theorem Comparable.size (h : img.Comparable rhs) : rhs.pixels.size = img.pixels.size := by
  rw [h.full', h.full, h.nx, h.ny, h.nc]

theorem Comparable.diff_bounds (h : img.Comparable rhs) {p : ℕ} (hp : p < img.pixels.size) :
    -(img.bps.fullScale : ℤ) ≤ img.signedDiff rhs p ∧ img.signedDiff rhs p ≤ img.bps.fullScale := by
  have hl := h.inScale p hp
  have hr := h.inScale' p (by rwa [h.size])
  rw [← h.bps] at hr
  unfold signedDiff
  omega

theorem differences_ends (h : img.Comparable rhs) :
    Ends (img.differences rhs) (fun dbuf => dbuf.size = img.pixels.size ∧
      ∀ p < img.pixels.size, dbuf.get p = img.signedDiff rhs p) fun _ => False := by
  refine (forSamples_ends (fun q (dbuf : Buffer ℤ) => dbuf.size = img.pixels.size ∧
    (∀ p < q, dbuf.get p = img.signedDiff rhs p) ∧ ∀ p, q ≤ p → dbuf.get p = 0)
    ⟨h.full.symm, fun p hp => absurd hp (Nat.not_lt_zero p), fun _ _ => rfl⟩
    fun x hx y hy c hc dbuf hd => ?_).imp fun dbuf hd => ?_
  · have hlt := h.full.sample_lt hx hy hc
    obtain ⟨hs, hdn, hr⟩ := hd
    rw [Buffer.fetch_of_lt _ hlt, ok_bind, Buffer.fetch_of_lt _ (by rwa [h.size]), ok_bind]
    split_ifs with hsm
    · refine ⟨hs, fun p hp => ?_, fun p hp => hr p (by omega)⟩
      rcases Nat.lt_succ_iff_lt_or_eq.mp hp with hb | rfl
      · exact hdn p hb
      · rw [hr _ le_rfl, signedDiff, hsm, sub_self]
    · rw [Buffer.put_of_lt _ (by rwa [hs])]
      refine ⟨hs, fun p hp => ?_, fun p hp => ?_⟩
      · by_cases hl : p = index img.nx img.nc x y c
        · rw [hl, Buffer.get_set_self, signedDiff]
        · rw [Buffer.get_set_of_ne _ hl]
          exact hdn p (by omega)
      · rw [Buffer.get_set_of_ne _ (by omega)]
        exact hr p (by omega)
  · rw [← h.full] at hd
    exact ⟨hd.1, hd.2.1⟩

/-- What the first `q` differences show. -/
structure Found (d : ℕ → ℤ) (q : ℕ) (found : ℤ × ℤ) : Prop where
  between : ∀ p < q, found.1 ≤ d p ∧ d p ≤ found.2
  min : found.1 = 2 ^ 31 - 1 ∨ ∃ p < q, d p = found.1
  max : found.2 = -2 ^ 31 ∨ ∃ p < q, d p = found.2

theorem Found.step {d : ℕ → ℤ} {q : ℕ} {found : ℤ × ℤ} (h : Found d q found) :
    Found d (q + 1) (if d q < found.1 then d q else found.1, if found.2 < d q then d q else found.2) := by
  refine ⟨fun p hp => ?_, ?_, ?_⟩
  · rcases Nat.lt_succ_iff_lt_or_eq.mp hp with hlt | rfl
    · have hb := h.between p hlt
      constructor <;> dsimp only <;> split_ifs <;> omega
    · constructor <;> dsimp only <;> split_ifs <;> omega
  · dsimp only
    split_ifs
    · exact Or.inr ⟨q, Nat.lt_succ_self q, rfl⟩
    · refine h.min.imp_right ?_
      rintro ⟨p, hp, heq⟩
      exact ⟨p, Nat.lt_succ_of_lt hp, heq⟩
  · dsimp only
    split_ifs
    · exact Or.inr ⟨q, Nat.lt_succ_self q, rfl⟩
    · refine h.max.imp_right ?_
      rintro ⟨p, hp, heq⟩
      exact ⟨p, Nat.lt_succ_of_lt hp, heq⟩

theorem extremes_ends (hf : img.Full) {dbuf : Buffer ℤ} (hs : dbuf.size = img.pixels.size) :
    Ends (img.extremes dbuf) (Found dbuf.get img.pixels.size) fun _ => False := by
  rw [hf]
  refine forSamples_ends (Found dbuf.get)
    ⟨fun p hp => absurd hp (Nat.not_lt_zero p), Or.inl rfl, Or.inl rfl⟩ fun x hx y hy c hc found hfn => ?_
  rw [Buffer.fetch_of_lt _ (by rw [hs]; exact hf.sample_lt hx hy hc), ok_bind]
  exact hfn.step

theorem le_largestDiff (rhs : SipiImage) {p : ℕ} (hp : p < img.pixels.size) :
    |img.signedDiff rhs p| ≤ img.largestDiff rhs := by
  have hle := Finset.le_sup (f := fun p => (img.signedDiff rhs p).natAbs) (Finset.mem_range.mpr hp)
  have hc : ((img.signedDiff rhs p).natAbs : ℤ) ≤ img.largestDiff rhs := by exact_mod_cast hle
  rwa [Int.natCast_natAbs] at hc

theorem exists_largestDiff (rhs : SipiImage) (hps : 0 < img.pixels.size) :
    ∃ p < img.pixels.size, |img.signedDiff rhs p| = img.largestDiff rhs := by
  obtain ⟨p, hp, heq⟩ := Finset.exists_mem_eq_sup (Finset.range img.pixels.size)
    ⟨0, Finset.mem_range.mpr hps⟩ fun p => (img.signedDiff rhs p).natAbs
  refine ⟨p, Finset.mem_range.mp hp, ?_⟩
  rw [← Int.natCast_natAbs, largestDiff, heq]

theorem maxmax_ends (h : img.Comparable rhs) (hps : 0 < img.pixels.size) {dbuf : Buffer ℤ} {found : ℤ × ℤ}
    (hd : ∀ p < img.pixels.size, dbuf.get p = img.signedDiff rhs p) (hf : Found dbuf.get img.pixels.size found) :
    maxmax found.1 found.2 = .ok (img.largestDiff rhs : ℤ) := by
  have hs : (img.bps.fullScale : ℤ) ≤ 65535 := by cases img.bps <;> decide
  have hz := hf.between 0 hps
  have hfr := h.diff_bounds hps
  rw [hd 0 hps] at hz
  obtain ⟨p, hp, hmn⟩ := hf.min.resolve_left (by omega)
  obtain ⟨r, hr, hm⟩ := hf.max.resolve_left (by omega)
  have hlw := le_largestDiff rhs hp
  have hh := le_largestDiff rhs hr
  rw [← hd p hp, hmn] at hlw
  rw [← hd r hr, hm] at hh
  obtain ⟨t, ht, hl⟩ := exists_largestDiff rhs hps
  have hb := hf.between t ht
  have hbn := h.diff_bounds ht
  rw [hd t ht] at hb
  have hle : (img.largestDiff rhs : ℤ) ≤ 65535 := by
    rw [← hl, abs_le]
    omega
  rw [maxmax, inInt, if_pos ⟨by have := abs_nonneg found.1; omega, by omega⟩, ok_bind, inInt,
    if_pos ⟨by have := abs_nonneg found.2; omega, by omega⟩, ok_bind]
  refine congrArg Except.ok ?_
  rw [← hl] at hlw hh ⊢
  grind

/-! ### Images that are not the same -/

theorem equals_eq_false_iff (h : img.Comparable rhs) :
    img.equals rhs = .ok false ↔ ∃ p < img.pixels.size, img.pixels.get p ≠ rhs.pixels.get p := by
  have he : Ends (forSamples img.nx img.ny img.nc (fun i j k n => do
      let l ← img.pixels.fetch DiffError.overrun (index img.nx img.nc i j k)
      let r ← rhs.pixels.fetch .overrun (index img.nx img.nc i j k)
      return if l = r then n else n + 1) 0)
      (fun n => n = 0 ↔ ∀ p < img.nx * img.ny * img.nc, img.pixels.get p = rhs.pixels.get p) fun _ => False := by
    refine forSamples_ends (fun q n => n = 0 ↔ ∀ p < q, img.pixels.get p = rhs.pixels.get p)
      (by simp) fun x hx y hy c hc n hn => ?_
    have hlt := h.full.sample_lt hx hy hc
    rw [Buffer.fetch_of_lt _ hlt, ok_bind, Buffer.fetch_of_lt _ (by rwa [h.size]), ok_bind]
    simp only [ends_pure, Nat.forall_lt_succ_right]
    split_ifs with hsm <;> simp [hsm, hn]
  obtain ⟨n, hn, hi⟩ := he.exists_ok
  have hs : ¬ (img.nx ≠ rhs.nx ∨ img.ny ≠ rhs.ny ∨ img.nc ≠ rhs.nc ∨ img.bps ≠ rhs.bps ∨
      img.photo ≠ rhs.photo) := by
    simp [h.nx, h.ny, h.nc, h.bps, h.photo]
  rw [← h.full] at hi
  rw [equals, if_neg hs, hn, ok_bind]
  have hcn : (pure (decide (n ≤ 0)) : Except DiffError Bool) = .ok false ↔ ¬ n = 0 := by
    simp [pure, Except.pure]
  rw [hcn, hi]
  push Not
  rfl

/-- The difference of two images. -/
structure IsDifference (img rhs out : SipiImage) : Prop where
  nx : out.nx = img.nx
  ny : out.ny = img.ny
  nc : out.nc = img.nc
  bps : out.bps = img.bps
  full : out.Full
  value : ∀ p < img.pixels.size, (out.pixels.get p : ℤ) =
    (img.signedDiff rhs p + img.largestDiff rhs) * img.bps.fullScale / (2 * img.largestDiff rhs)
  gray : ∀ p < img.pixels.size, img.pixels.get p = rhs.pixels.get p → out.pixels.get p = img.bps.fullScale / 2
  mono : ∀ p < img.pixels.size, ∀ q < img.pixels.size, img.signedDiff rhs p ≤ img.signedDiff rhs q →
    out.pixels.get p ≤ out.pixels.get q

/-- **The difference is well defined.** -/
def WellDefined (img rhs : SipiImage) : Prop := ∃ out, img.subAssign rhs = .ok out ∧ IsDifference img rhs out

theorem isDifference_of_value {out : SipiImage} (hnx : out.nx = img.nx) (hny : out.ny = img.ny) (hnc : out.nc = img.nc)
    (hb : out.bps = img.bps) (hf : out.Full) (hps : 0 < img.largestDiff rhs)
    (hv : ∀ p < img.pixels.size, (out.pixels.get p : ℤ) =
      (img.signedDiff rhs p + img.largestDiff rhs) * img.bps.fullScale / (2 * img.largestDiff rhs)) :
    IsDifference img rhs out := by
  have hp' : (0 : ℤ) < img.largestDiff rhs := by exact_mod_cast hps
  refine ⟨hnx, hny, hnc, hb, hf, hv, fun p hp hs => ?_, fun p hp q hq hle => ?_⟩
  · have hz : img.signedDiff rhs p = 0 := by rw [signedDiff, hs, sub_self]
    have hg := hv p hp
    rw [hz, zero_add, mul_comm 2 (img.largestDiff rhs : ℤ), Int.mul_ediv_mul_of_pos _ _ hp'] at hg
    omega
  · have hc : (out.pixels.get p : ℤ) ≤ out.pixels.get q := by
      rw [hv p hp, hv q hq]
      refine Int.ediv_le_ediv (by omega) (mul_le_mul_of_nonneg_right (by omega) (Nat.cast_nonneg _))
    exact_mod_cast hc

theorem rescaled_ends (hf : img.Full) {dbuf : Buffer ℤ} (hs : dbuf.size = img.pixels.size) (m : ℤ) :
    Ends (img.rescaled dbuf m) (fun out => out.size = img.pixels.size ∧
      ∀ p < img.pixels.size, rescale img.bps (dbuf.get p) m = .ok (out.get p))
      fun _ => ∃ p < img.pixels.size, ∀ v, rescale img.bps (dbuf.get p) m ≠ .ok v := by
  rw [hf]
  refine forSamples_ends (fun q (out : Buffer ℕ) => out.size = img.nx * img.ny * img.nc ∧
      ∀ p < q, rescale img.bps (dbuf.get p) m = .ok (out.get p))
    ⟨hf, fun p hp => absurd hp (Nat.not_lt_zero p)⟩ fun x hx y hy c hc out ho => ?_
  have hlt := index_lt hx hy hc
  rw [Buffer.fetch_of_lt _ (by rwa [hs, hf]), ok_bind]
  cases hv : rescale img.bps (dbuf.get (index img.nx img.nc x y c)) m with
  | error e =>
    refine ⟨_, hlt, fun v => ?_⟩
    rw [hv]
    simp
  | ok v =>
    rw [ok_bind, Buffer.put_of_lt _ (by rw [ho.1]; exact hlt)]
    refine ⟨ho.1, fun p hp => ?_⟩
    by_cases hl : p = index img.nx img.nc x y c
    · rw [hl, Buffer.get_set_self, hv]
    · rw [Buffer.get_set_of_ne _ hl]
      exact ho.2 p (by omega)

theorem subAssign_eq (h : img.Comparable rhs) (hp : 0 < img.pixels.size) :
    ∃ dbuf : Buffer ℤ, dbuf.size = img.pixels.size ∧ (∀ p < img.pixels.size, dbuf.get p = img.signedDiff rhs p) ∧
      img.subAssign rhs = (img.rescaled dbuf (img.largestDiff rhs)).map fun ltmp => { img with pixels := ltmp } := by
  obtain ⟨dbuf, hdb, hs, hd⟩ := (differences_ends h).exists_ok
  obtain ⟨found, hf, he⟩ := (extremes_ends h.full hs).exists_ok
  have hc : ¬ (img.nc ≠ rhs.nc ∨ img.bps ≠ rhs.bps ∨ img.photo ≠ rhs.photo) := by
    simp [h.nc, h.bps, h.photo]
  have hsd : ¬ (img.nx ≠ rhs.nx ∨ img.ny ≠ rhs.ny) := by simp [h.nx, h.ny]
  refine ⟨dbuf, hs, hd, ?_⟩
  simp only [subAssign, if_neg hc, if_neg hsd, ok_bind, hdb, hf, maxmax_ends h hp hd he]
  cases img.rescaled dbuf (img.largestDiff rhs) with
  | error | ok => rfl

theorem rescale_diff_iff (h : img.Comparable rhs) (hps : 0 < img.largestDiff rhs) {p : ℕ} (hp : p < img.pixels.size)
    {v : ℕ} : rescale img.bps (img.signedDiff rhs p) (img.largestDiff rhs) = .ok v ↔
      (img.bps = .eight ∨ img.signedDiff rhs p + img.largestDiff rhs ≤ 32768) ∧ (v : ℤ) =
        (img.signedDiff rhs p + img.largestDiff rhs) * img.bps.fullScale / (2 * img.largestDiff rhs) := by
  have hb := abs_le.mp (le_largestDiff rhs hp)
  have hs : (img.largestDiff rhs : ℤ) ≤ img.bps.fullScale := by
    obtain ⟨q, hq, hl⟩ := exists_largestDiff rhs (Nat.zero_lt_of_lt hp)
    rw [← hl]
    exact abs_le.mpr (h.diff_bounds hq)
  rw [rescale_eq_ok_iff (by exact_mod_cast hps) hs hb, product_fits_iff hs hb.2]

/-- **When the difference of two images is well defined**: they have eight bits, or no difference and the largest one
add up to more than 32768. -/
theorem wellDefined_iff (img rhs : SipiImage) (h : img.Comparable rhs) (hdiffer : img.equals rhs = .ok false) :
    img.WellDefined rhs ↔ img.bps = .eight ∨ ∀ p < img.pixels.size, ∀ q < img.pixels.size,
      img.signedDiff rhs p + |img.signedDiff rhs q| ≤ 32768 := by
  obtain ⟨t, ht, hne⟩ := (equals_eq_false_iff h).mp hdiffer
  have hs : 0 < img.pixels.size := Nat.zero_lt_of_lt ht
  have hps : 0 < img.largestDiff rhs := by
    have hle := le_largestDiff rhs ht
    have hdf : 0 < |img.signedDiff rhs t| := by
      rw [abs_pos, signedDiff, sub_ne_zero]
      exact_mod_cast hne
    exact_mod_cast hdf.trans_le hle
  obtain ⟨dbuf, hsz, hd, hsb⟩ := subAssign_eq h hs
  have hl := rescaled_ends h.full hsz (img.largestDiff rhs)
  constructor
  · rintro ⟨out, ho, -⟩
    rw [hsb] at ho
    obtain ⟨ltmp, hlt, -⟩ := map_eq_ok.mp ho
    by_cases height : img.bps = .eight
    · exact Or.inl height
    · refine Or.inr fun p hp q hq => ?_
      have hv := (hl.of_ok hlt).2 p hp
      rw [hd p hp] at hv
      have hft := ((rescale_diff_iff h hps hp).mp hv).1.resolve_left height
      have hle := le_largestDiff rhs hq
      omega
  · intro hc
    obtain ⟨q, hq, hlr⟩ := exists_largestDiff rhs hs
    have hft : ∀ p < img.pixels.size, img.bps = .eight ∨ img.signedDiff rhs p + img.largestDiff rhs ≤ 32768 := by
      intro p hp
      rw [← hlr]
      exact hc.imp_right fun hsm => hsm p hp q hq
    cases ho : img.rescaled dbuf (img.largestDiff rhs) with
    | error e =>
      rw [ho] at hl
      obtain ⟨p, hp, hf⟩ := hl
      have hlw := (abs_le.mp (le_largestDiff rhs hp)).1
      have hn : 0 ≤ (img.signedDiff rhs p + img.largestDiff rhs) * img.bps.fullScale / (2 * img.largestDiff rhs) :=
        Int.ediv_nonneg (mul_nonneg (by omega) (Nat.cast_nonneg _)) (by omega)
      rw [hd p hp] at hf
      exact absurd ((rescale_diff_iff h hps hp).mpr ⟨hft p hp, Int.toNat_of_nonneg hn⟩) (hf _)
    | ok ltmp =>
      rw [ho] at hl hsb
      refine ⟨_, hsb, isDifference_of_value rfl rfl rfl rfl (hl.1.trans h.full) hps fun p hp => ?_⟩
      have hv := hl.2 p hp
      rw [hd p hp] at hv
      exact ((rescale_diff_iff h hps hp).mp hv).2

end

def threePixels (a b c : ℕ) : SipiImage :=
  ⟨3, 1, 1, .sixteen, .minisblack, [], .topLeft, none, ⟨3, fun p => if p = 0 then a else if p = 1 then b else c⟩⟩

theorem comparable_threePixels {a b c a' b' c' : ℕ} (h : (a ≤ 65535 ∧ b ≤ 65535 ∧ c ≤ 65535) ∧
    a' ≤ 65535 ∧ b' ≤ 65535 ∧ c' ≤ 65535) : (threePixels a b c).Comparable (threePixels a' b' c') := by
  refine ⟨rfl, rfl, rfl, rfl, rfl, rfl, fun p _ => ?_, rfl, fun p _ => ?_⟩
  · change (if p = 0 then a else if p = 1 then b else c) ≤ 65535
    split_ifs <;> omega
  · change (if p = 0 then a' else if p = 1 then b' else c') ≤ 65535
    split_ifs <;> omega

theorem wellDefined_row :
    (threePixels 100 7 300).equals (threePixels 30000 7 200) = .ok false ∧
      (threePixels 100 7 300).WellDefined (threePixels 30000 7 200) := by
  have hd : (threePixels 100 7 300).equals (threePixels 30000 7 200) = .ok false := rfl
  have hf : ∀ p < 3, ∀ q < 3, (threePixels 100 7 300).signedDiff (threePixels 30000 7 200) p +
      |(threePixels 100 7 300).signedDiff (threePixels 30000 7 200) q| ≤ 32768 := by decide
  exact ⟨hd, (wellDefined_iff _ _ (comparable_threePixels (by decide)) hd).mpr (Or.inr hf)⟩

def onePixelOf (bps : Depth) (v : ℕ) : SipiImage := ⟨1, 1, 1, bps, .minisblack, [], .topLeft, none, .const 1 v⟩

theorem white_minus_black : (onePixelOf .sixteen 65535).equals (onePixelOf .sixteen 0) = .ok false ∧
    (onePixelOf .sixteen 65535).subAssign (onePixelOf .sixteen 0) = .error .overflow ∧
      ¬ (onePixelOf .sixteen 65535).WellDefined (onePixelOf .sixteen 0) := by
  have hf : (onePixelOf .sixteen 65535).subAssign (onePixelOf .sixteen 0) = .error .overflow := rfl
  refine ⟨rfl, hf, ?_⟩
  rintro ⟨out, ho, -⟩
  rw [hf] at ho
  cases ho

end SipiImage

end Sipi.Image
