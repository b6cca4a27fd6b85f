import Sipi.Image.Bitonal

/-!
# How far the error of dithering goes

`SipiImage::toBitonal` of `src/SipiImage.cpp` makes a gray pixel black or white and spreads the error over four
pixels that come later.
-/

namespace Sipi.Image

open Sipi.Theory

/-- What a pixel does with a share of its error. -/
structure Share where
  given : Bool
  place : ℕ
  amount : ℤ

/-- The four shares of a pixel, in order. -/
def errorShare (nx ny x y : ℕ) (properr : ℤ) : ℕ → Share
  | 0 => ⟨x < nx - 1, y * nx + (x + 1), 7 * properr / 16⟩
  | 1 => ⟨0 < x && y < ny - 1, (y + 1) * nx + (x - 1), 3 * properr / 16⟩
  | 2 => ⟨y < ny - 1, (y + 1) * nx + x, 5 * properr / 16⟩
  | _ => ⟨x < nx - 1 && y < ny - 1, (y + 1) * nx + (x + 1), properr / 16⟩

/-- The pixel that the old one becomes. -/
def newpixel (oldpixel : ℤ) : ℤ := if 127 < oldpixel then 255 else 0

/-- The error that is spread. -/
def properr (oldpixel : ℤ) : ℤ := oldpixel - newpixel oldpixel

/-- A share is added to the work value of its pixel. -/
def Share.give (s : Share) (outbuf : Buffer ℤ) : Except BitonalError (Buffer ℤ) :=
  spreadIf s.given s.place s.amount outbuf

/-- The body of the loop, up to the first `k` shares. -/
def visit (k nx ny x y : ℕ) (outbuf : Buffer ℤ) : Except BitonalError (Buffer ℤ) := do
  let oldpixel ← outbuf.fetch .overrun (y * nx + x)
  let outbuf ← outbuf.put .overrun (y * nx + x) (newpixel oldpixel)
  forRange (fun i => (errorShare nx ny x y (properr oldpixel) i).give) k 0 outbuf

/-- The loop, up to the first `q` pixels. -/
def ditherUpTo (nx ny q : ℕ) (outbuf : Buffer ℤ) : Except BitonalError (Buffer ℤ) :=
  forRange (fun i => ditherPixel nx ny (i % nx) (i / nx)) q 0 outbuf

theorem ditherPixel_eq_visit (nx ny x y : ℕ) : ditherPixel nx ny x y = visit 4 nx ny x y := by
  funext outbuf
  have hl : ∀ z : Except BitonalError (Buffer ℤ), (z >>= Except.ok) = z := by rintro (e | t) <;> rfl
  simp only [ditherPixel, visit, forRange, errorShare, Share.give, newpixel, properr, hl]

theorem dither_eq_ditherUpTo (nx ny : ℕ) (outbuf : Buffer ℤ) :
    dither nx ny outbuf = ditherUpTo nx ny (nx * ny) outbuf := by
  rw [dither, forPixels_eq_forRange, Nat.mul_comm, ditherUpTo]

/-! ### What a pixel has got -/

/-- The sixteenths of each share. -/
def weight : ℕ → ℤ
  | 0 => 7
  | 1 => 3
  | 2 => 5
  | _ => 1

/-- The first pixel without its share of each kind. -/
def front (nx q : ℕ) : ℕ → ℕ
  | 0 => q + 1
  | 1 => q + nx - 1
  | 2 => q + nx
  | _ => q + nx + 1

variable {nx : ℕ}

theorem front_succ (hnx : 0 < nx) (q i : ℕ) : front nx (q + 1) i = front nx q i + 1 := by
  unfold front
  split <;> omega

variable {ny i : ℕ} {e : ℤ}

theorem place_eq_front {x y : ℕ} (hg : (errorShare nx ny x y e i).given = true) :
    (errorShare nx ny x y e i).place = front nx (y * nx + x) i := by
  have hn : (y + 1) * nx = y * nx + nx := Nat.succ_mul y nx
  unfold errorShare at hg ⊢
  unfold front
  split at hg <;> simp only [Bool.and_eq_true, decide_eq_true_eq] at hg ⊢ <;> omega

theorem place_lt_of_given {x y : ℕ} (hx : x < nx) (hy : y < ny) (hg : (errorShare nx ny x y e i).given = true) :
    y * nx + x < (errorShare nx ny x y e i).place ∧ (errorShare nx ny x y e i).place < nx * ny := by
  have hn : (y + 1) * nx = y * nx + nx := Nat.succ_mul y nx
  unfold errorShare at hg ⊢
  split at hg <;> simp only [Bool.and_eq_true, decide_eq_true_eq] at hg ⊢
  · exact ⟨by omega, place_lt (by omega) hy⟩
  · exact ⟨by omega, place_lt (by omega) (by omega)⟩
  · exact ⟨by omega, place_lt hx (by omega)⟩
  · exact ⟨by omega, place_lt (by omega) (by omega)⟩

theorem amount_eq (nx ny x y i : ℕ) (e : ℤ) : (errorShare nx ny x y e i).amount = weight i * e / 16 := by
  unfold errorShare weight
  split <;> simp

/-- The bounds of the errors. -/
def ErrorInScale (e : ℤ) : Prop := -128 ≤ e ∧ e ≤ 127

/-- The bounds of a share. -/
def ShareInScale (i : ℕ) (v : ℤ) : Prop := weight i * (-128) / 16 ≤ v ∧ v ≤ weight i * 127 / 16

theorem shareInScale_zero (i : ℕ) : ShareInScale i 0 := by
  unfold ShareInScale weight
  split <;> decide

theorem ErrorInScale.share (h : ErrorInScale e) (i : ℕ) : ShareInScale i (weight i * e / 16) := by
  obtain ⟨hl, hh⟩ := h
  unfold ShareInScale weight
  split <;> omega

theorem ShareInScale.bounds {v : ℤ} (h : ShareInScale i v) : -56 ≤ v ∧ v ≤ 55 := by
  unfold ShareInScale weight at h
  split at h <;> omega

/-- All that a pixel has got. -/
def total (got : ℕ → ℕ → ℤ) (p : ℕ) : ℤ := got 0 p + got 1 p + got 2 p + got 3 p

/-- **What the pixels from `q` on have got.** -/
structure Received (n q : ℕ) (level : ℕ → UInt8) (front : ℕ → ℕ) (got : ℕ → ℕ → ℤ) (outbuf : Buffer ℤ) : Prop where
  size : outbuf.size = n
  value : ∀ p, q ≤ p → outbuf.get p = (level p).toNat + total got p
  scale : ∀ i p, ShareInScale i (got i p)
  fresh : ∀ i p, front i ≤ p → got i p = 0

section
variable {n q : ℕ} {level : ℕ → UInt8} {t : ℕ → ℕ} {got : ℕ → ℕ → ℤ} {outbuf : Buffer ℤ}

theorem Received.bounds (h : Received n q level t got outbuf) {p : ℕ} (hp : q ≤ p) :
    -128 ≤ outbuf.get p - (level p).toNat ∧ outbuf.get p - (level p).toNat ≤ 124 := by
  have hr := h.scale 0 p
  have hlf := h.scale 1 p
  have hb := h.scale 2 p
  have hl := h.scale 3 p
  rw [h.value p hp, total]
  simp only [ShareInScale, weight] at hr hlf hb hl
  omega

theorem level_bounds (level : ℕ → UInt8) (p : ℕ) : (0 : ℤ) ≤ (level p).toNat ∧ ((level p).toNat : ℤ) ≤ 255 := by
  have hlt := (level p).toNat_lt
  omega

theorem Received.error (h : Received n q level t got outbuf) : ErrorInScale (properr (outbuf.get q)) := by
  obtain ⟨hlw, hh⟩ := h.bounds le_rfl
  have hl := level_bounds level q
  unfold ErrorInScale properr newpixel
  split_ifs <;> omega

theorem Received.set (h : Received n q level t got outbuf) (v : ℤ) :
    Received n (q + 1) level t got (outbuf.set q v) := by
  refine ⟨h.size, fun p hp => ?_, h.scale, h.fresh⟩
  rw [Buffer.get_set_of_ne _ (by omega)]
  exact h.value p (by omega)

theorem Received.mono {t' : ℕ → ℕ} (h : Received n q level t got outbuf) (hle : ∀ i, t i ≤ t' i) :
    Received n q level t' got outbuf :=
  ⟨h.size, h.value, h.scale, fun i p hp => h.fresh i p ((hle i).trans hp)⟩

theorem short_of_bounds {v : ℤ} (hl : -2 ^ 15 ≤ v) (hh : v < 2 ^ 15) : short v = v := by
  unfold short
  rw [Int.bmod_eq_of_le] <;> omega

/-- One more share, of kind `i` for `r`. -/
def addShare (got : ℕ → ℕ → ℤ) (i r : ℕ) (err : ℤ) : ℕ → ℕ → ℤ :=
  fun j p => if j = i ∧ p = r then err else got j p

theorem total_addShare {r : ℕ} (hi : i < 4) (hf : got i r = 0) (err : ℤ) (p : ℕ) :
    total (addShare got i r err) p = total got p + if p = r then err else 0 := by
  unfold total addShare
  by_cases hp : p = r
  · subst hp
    obtain rfl | rfl | rfl | rfl : i = 0 ∨ i = 1 ∨ i = 2 ∨ i = 3 := by omega
    all_goals grind
  · simp [hp]

theorem Received.spread (h : Received n q level t got outbuf) (hi : i < 4) (hq : q ≤ t i) (hn : t i < n)
    {err : ℤ} (he : ShareInScale i err) :
    Ends (spread (t i) err outbuf) (Received n q level (Function.update t i (t i + 1)) (addShare got i (t i) err))
      fun _ => False := by
  obtain ⟨hlw, hh⟩ := h.bounds hq
  have hl := level_bounds level (t i)
  have ha := he.bounds
  have hr : t i < outbuf.size := by rwa [h.size]
  rw [Image.spread, Buffer.fetch_of_lt _ hr, ok_bind, Buffer.put_of_lt _ hr,
    short_of_bounds (by omega) (by omega)]
  refine ⟨h.size, fun p hp => ?_, fun j p => ?_, fun j p hp => ?_⟩
  · rw [total_addShare hi (h.fresh i (t i) le_rfl)]
    split_ifs with heq
    · rw [heq, Buffer.get_set_self, h.value _ hq]
      ring
    · rw [Buffer.get_set_of_ne _ heq, h.value p hp, add_zero]
  · unfold addShare
    split_ifs with heq
    · rw [heq.1]
      exact he
    · exact h.scale j p
  · by_cases hj : j = i
    · subst hj
      rw [Function.update_self] at hp
      rw [addShare, if_neg (by omega)]
      exact h.fresh j p (by omega)
    · rw [Function.update_of_ne hj] at hp
      rw [addShare, if_neg (by simp [hj])]
      exact h.fresh j p hp

end

variable {q : ℕ}

section
variable {nx ny x y : ℕ} {level : ℕ → UInt8} {outbuf : Buffer ℤ}

/-- The same, after `k` shares of `q`. -/
def frontAt (nx q k : ℕ) (i : ℕ) : ℕ := front nx q i + if i < k then 1 else 0

/-- **What they have got** after `k` shares. -/
def Spread (nx ny q k : ℕ) (level : ℕ → UInt8) (outbuf : Buffer ℤ) : Prop :=
  ∃ got, Received (nx * ny) (q + 1) level (frontAt nx q k) got outbuf

theorem Spread.bounds {k p : ℕ} (h : Spread nx ny q k level outbuf) (hp : q < p) :
    -128 ≤ outbuf.get p - (level p).toNat ∧ outbuf.get p - (level p).toNat ≤ 124 := by
  obtain ⟨got, hg⟩ := h
  exact hg.bounds hp

theorem frontAt_succ (nx q k : ℕ) :
    Function.update (frontAt nx q k) k (frontAt nx q k k + 1) = frontAt nx q (k + 1) := by
  funext i
  by_cases hi : i = k
  · subst hi
    simp [frontAt]
  · rw [Function.update_of_ne hi, frontAt, frontAt]
    congr 1
    split_ifs <;> omega

theorem give_ends {k : ℕ} (hx : x < nx) (hy : y < ny) (hk : k < 4) (he : ErrorInScale e)
    (h : Spread nx ny (y * nx + x) k level outbuf) :
    Ends ((errorShare nx ny x y e k).give outbuf) (Spread nx ny (y * nx + x) (k + 1) level) fun _ => False := by
  obtain ⟨got, hgt⟩ := h
  rw [Share.give, spreadIf]
  split_ifs with hg
  · obtain ⟨hl, hr⟩ := place_lt_of_given hx hy hg
    have hp : (errorShare nx ny x y e k).place = frontAt nx (y * nx + x) k k := by
      rw [place_eq_front hg, frontAt, if_neg (lt_irrefl k), Nat.add_zero]
    rw [hp] at hl hr ⊢
    rw [amount_eq]
    refine (hgt.spread hk hl hr (he.share k)).imp fun out ho => ?_
    rw [frontAt_succ] at ho
    exact ⟨_, ho⟩
  · refine ⟨got, hgt.mono fun i => ?_⟩
    unfold frontAt
    split_ifs <;> omega

/-- The pixels from `q` on, before it is its turn. -/
def Awaiting (nx ny q : ℕ) (level : ℕ → UInt8) (outbuf : Buffer ℤ) : Prop :=
  ∃ got, Received (nx * ny) q level (front nx q) got outbuf

theorem visit_ends {k : ℕ} (hx : x < nx) (hy : y < ny) (hk : k ≤ 4) (h : Awaiting nx ny (y * nx + x) level outbuf) :
    Ends (visit k nx ny x y outbuf) (Spread nx ny (y * nx + x) k level) fun _ => False := by
  obtain ⟨got, hg⟩ := h
  have hr : y * nx + x < outbuf.size := by
    rw [hg.size]
    exact place_lt hx hy
  rw [visit, Buffer.fetch_of_lt _ hr, ok_bind, Buffer.put_of_lt _ hr, ok_bind]
  refine forCount_ends (fun i => Spread nx ny (y * nx + x) i level) ⟨got, hg.set _⟩ fun i t hi ht => ?_
  exact give_ends hx hy (by omega) hg.error ht

theorem Spread.awaiting (hnx : 0 < nx) (h : Spread nx ny q 4 level outbuf) :
    Awaiting nx ny (q + 1) level outbuf := by
  obtain ⟨got, hsz, hv, hs, hf⟩ := h
  refine ⟨fun i p => if i < 4 then got i p else 0, hsz, hv, fun i p => ?_, fun i p hp => ?_⟩
  · split_ifs with hi
    · exact hs i p
    · exact shareInScale_zero i
  · split_ifs with hi
    · refine hf i p ?_
      rwa [frontAt, if_pos hi, ← front_succ hnx]
    · rfl

end

/-- The work buffer, with the gray levels. -/
def workBuffer (nx ny : ℕ) (level : ℕ → UInt8) : Buffer ℤ := ⟨nx * ny, fun p => (level p).toNat⟩

theorem awaiting_workBuffer (nx ny : ℕ) (level : ℕ → UInt8) : Awaiting nx ny 0 level (workBuffer nx ny level) := by
  refine ⟨fun _ _ => 0, rfl, fun p _ => ?_, fun i _ => shareInScale_zero i, fun _ _ _ => rfl⟩
  simp [workBuffer, total]

theorem ditherUpTo_ends (level : ℕ → UInt8) (hq : q ≤ nx * ny) :
    Ends (ditherUpTo nx ny q (workBuffer nx ny level)) (Awaiting nx ny q level) fun _ => False := by
  refine forCount_ends (fun i => Awaiting nx ny i level) (awaiting_workBuffer nx ny level) fun i t hi ht => ?_
  obtain ⟨hx, hy, hp⟩ := pixel_of_place (hi.trans_le hq)
  have hv := visit_ends hx hy le_rfl (by rwa [hp])
  rw [hp] at hv
  rw [ditherPixel_eq_visit]
  exact hv.imp fun _ hs => hs.awaiting (Nat.zero_lt_of_lt hx)

/-- The pixels from `q` on are in the bounds. -/
def InBounds (nx ny q : ℕ) (level : ℕ → UInt8) (outbuf : Buffer ℤ) : Prop :=
  ∀ p, q ≤ p → p < nx * ny → (-128 ≤ outbuf.get p ∧ outbuf.get p ≤ 379) ∧
    -128 ≤ outbuf.get p - (level p).toNat ∧ outbuf.get p - (level p).toNat ≤ 124

/-- **The loop stays in its bounds.** -/
structure StaysBounded (nx ny : ℕ) (level : ℕ → UInt8) : Prop where
  /-- No access is beyond the end. -/
  ends : ∃ out, dither nx ny (workBuffer nx ny level) = .ok out
  /-- What holds at every moment. -/
  always : ∀ q < nx * ny, ∀ k ≤ 4, ∃ before during,
    ditherUpTo nx ny q (workBuffer nx ny level) = .ok before ∧
      visit k nx ny (q % nx) (q / nx) before = .ok during ∧
      InBounds nx ny q level before ∧ InBounds nx ny (q + 1) level during ∧
      ErrorInScale (properr (before.get q)) ∧
      ∀ s, s = errorShare nx ny (q % nx) (q / nx) (properr (before.get q)) k → k < 4 → s.given = true →
        q < s.place ∧ s.place < nx * ny ∧ -2 ^ 15 ≤ during.get s.place + s.amount ∧
          during.get s.place + s.amount < 2 ^ 15

theorem inBounds_of_received {level : ℕ → UInt8} {outbuf : Buffer ℤ} {t : ℕ → ℕ} {got : ℕ → ℕ → ℤ}
    (h : Received (nx * ny) q level t got outbuf) : InBounds nx ny q level outbuf := by
  intro p hp _
  obtain ⟨hlw, hh⟩ := h.bounds hp
  have hl := level_bounds level p
  exact ⟨⟨by omega, by omega⟩, hlw, hh⟩

/-- **The error of dithering stays bounded**, for every gray buffer of eight bits. -/
theorem dither_staysBounded (nx ny : ℕ) (level : ℕ → UInt8) : StaysBounded nx ny level := by
  constructor
  · obtain ⟨out, ho, -⟩ := (ditherUpTo_ends level (le_refl (nx * ny))).exists_ok
    exact ⟨out, by rw [dither_eq_ditherUpTo, ho]⟩
  · intro q hq k hk
    obtain ⟨hx, hy, hp⟩ := pixel_of_place hq
    obtain ⟨before, hb, ha⟩ := (ditherUpTo_ends level hq.le).exists_ok
    have hv := visit_ends hx hy hk (by rwa [hp])
    obtain ⟨during, hd, gotDuring, hs⟩ := hv.exists_ok
    obtain ⟨got, hgt⟩ := ha
    rw [hp] at hs
    refine ⟨before, during, hb, hd, inBounds_of_received hgt, inBounds_of_received hs, hgt.error, ?_⟩
    rintro s rfl hk4 hg
    obtain ⟨hl, hr⟩ := place_lt_of_given hx hy hg
    rw [hp] at hl
    obtain ⟨⟨hlw, hh⟩, -⟩ := inBounds_of_received hs _ hl hr
    have ham := (hgt.error.share k).bounds
    rw [← amount_eq nx ny (q % nx) (q / nx)] at ham
    exact ⟨hl, hr, by omega, by omega⟩

namespace SipiImage

/-- The gray levels of an image. -/
def grayLevel (img : SipiImage) (p : ℕ) : UInt8 :=
  if p < img.nx * img.ny then UInt8.ofNat (img.data.get p) else 0

theorem dithered_eq {img : SipiImage} (hr : img.nx * img.ny ≤ img.data.size)
    (hb : ∀ p < img.nx * img.ny, img.data.get p < 256) :
    img.dithered = do
      let outbuf ← dither img.nx img.ny (workBuffer img.nx img.ny img.grayLevel)
      let bytes ← forRange (fun i bytes => do
        let v ← outbuf.fetch .overrun i
        bytes.put .overrun i (v % 256).toNat) (img.nx * img.ny) 0 img.data
      return img.withData bytes := by
  have hc : Ends (forRange (fun i outbuf => do
      let v ← img.data.fetch BitonalError.overrun i
      outbuf.put .overrun i (v : ℤ)) (img.nx * img.ny) 0 (.const (img.nx * img.ny) 0))
      (fun outbuf : Buffer ℤ => outbuf = workBuffer img.nx img.ny img.grayLevel) fun _ => False := by
    refine (forCount_ends (fun q (outbuf : Buffer ℤ) => outbuf.size = img.nx * img.ny ∧
      ∀ p, outbuf.get p = if p < q then (img.grayLevel p).toNat else 0) ⟨rfl, fun p => rfl⟩
      fun i outbuf hi ho => ?_).imp fun outbuf ho => ?_
    · rw [Buffer.fetch_of_lt _ (by omega), ok_bind, Buffer.put_of_lt _ (by rw [ho.1]; exact hi)]
      refine ⟨ho.1, fun p => ?_⟩
      by_cases hp : p = i
      · subst hp
        rw [Buffer.get_set_self, if_pos (by omega), grayLevel, if_pos hi, UInt8.toNat_ofNat_of_lt' (hb p hi)]
      · rw [Buffer.get_set_of_ne _ hp, ho.2]
        split_ifs <;> first | rfl | omega
    · refine Buffer.ext ho.1 (funext fun p => ?_)
      rw [ho.2]
      split_ifs with hp
      · rfl
      · simp [workBuffer, grayLevel, hp]
  obtain ⟨outbuf, ho, rfl⟩ := hc.exists_ok
  rw [dithered, ho, ok_bind]

end SipiImage

end Sipi.Image
