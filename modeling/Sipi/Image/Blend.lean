import Sipi.Theory.Buffers
import Mathlib.Data.Rat.Floor

/-!
# Blending a watermark into an image

`SipiImage::add_watermark` scales a watermark so that it fits into the image, centres it, and blends it over the
samples it covers, reading it with `bilinn`.

## Honest scope

The arithmetic is exact. The bytes of a watermark are fewer than `2^31`.
-/

namespace Sipi.Image

open Sipi.Theory

/-- The sides and the channels of an image. -/
structure Frame where
  nx : ℕ
  ny : ℕ
  nc : ℕ
  nx_pos : 0 < nx := by decide
  ny_pos : 0 < ny := by decide
  nc_pos : 0 < nc := by decide

/-- The number of samples. -/
def Frame.samples (f : Frame) : ℕ := f.nx * f.ny * f.nc

/-- The bits of a sample that an image has in memory. -/
inductive Depth where
  | eight
  | sixteen
  deriving DecidableEq

/-- The largest sample. -/
def Depth.fullScale : Depth → ℕ
  | .eight => 255
  | .sixteen => 65535

/-- What goes wrong. -/
inductive ImageError where
  | unreadable
  | overrun
  deriving DecidableEq

/-- One block of samples within the scale. -/
structure Holds (f : Frame) (top : ℕ) (b : Buffer ℕ) : Prop where
  size : b.size = f.samples
  le : ∀ p, b.get p ≤ top

/-- A TIFF, as `read_watermark` sees it. -/
structure WatermarkFile where
  frame : Frame
  bps : ℕ
  contig : Bool
  scanline : ℕ → Option (Buffer ℕ)

/-- `read_watermark`: eight-bit scanlines. -/
def readWatermark (file : Option WatermarkFile) : Except ImageError (Frame × Buffer ℕ) :=
  match file with
  | none => .error .unreadable
  | some w =>
    if w.bps ≠ 8 ∨ w.contig = false then .error .unreadable
    else
      let sll := w.frame.nx * w.frame.nc
      (forRange (fun i buf => match w.scanline i with
        | some line => buf.copy .overrun (sll * i) line 0 sll
        | none => .error .unreadable) w.frame.ny 0 (.const (w.frame.ny * sll) 0)).map fun buf => (w.frame, buf)

/-! ### Interpolation -/

/-- `static_cast<int>`. -/
def trunc (x : ℚ) : ℤ := if 0 ≤ x then ⌊x⌋ else ⌈x⌉

/-- `(byte)lround(v)`. -/
def lroundByte (v : ℚ) : ℕ := ((if 0 ≤ v then ⌊v + 1 / 2⌋ else ⌈v - 1 / 2⌉) % 256).toNat

/-- The sample before `x`, with another one after it. -/
def clampIndex (n : ℕ) (x : ℚ) : ℕ :=
  if trunc x < 0 then 0 else if (n : ℤ) - 1 ≤ trunc x then n - 2 else (trunc x).toNat

/-- The way from one sample to the next. -/
def clampUnit (r : ℚ) : ℚ := max 0 (min r 1)

/-- `Threshold` of `bilinn`. -/
def threshold : ℚ := 1 / 100

/-- Interpolation between four samples. -/
def interpolate (sample : ℕ → ℕ → Except ImageError ℕ) (rx ry : ℚ) : Except ImageError ℕ :=
  if rx < threshold ∧ ry < threshold then sample 0 0
  else if rx < threshold then do
    let a ← sample 0 0
    let b ← sample 0 1
    return lroundByte (a * (1 - rx - ry + rx * ry) + b * (ry - rx * ry))
  else if ry < threshold then do
    let a ← sample 0 0
    let b ← sample 1 0
    return lroundByte (a * (1 - rx - ry + rx * ry) + b * (rx - rx * ry))
  else do
    let a ← sample 0 0
    let b ← sample 1 0
    let c ← sample 0 1
    let d ← sample 1 1
    return lroundByte (a * (1 - rx - ry + rx * ry) + b * (rx - rx * ry) + c * (ry - rx * ry) + d * rx * ry)

/-- `SipiImage::bilinn` for bytes. -/
def bilinn (buf : Buffer ℕ) (nx ny : ℕ) (x y : ℚ) (c n : ℕ) : Except ImageError ℕ :=
  if nx < 2 ∨ ny < 2 then buf.fetch .overrun c
  else
    let ix := clampIndex nx x
    let iy := clampIndex ny y
    interpolate (fun dx dy => buf.fetch .overrun (index nx n (ix + dx) (iy + dy) c)) (clampUnit (x - ix))
      (clampUnit (y - iy))

theorem clampIndex_lt {n : ℕ} (hn : 2 ≤ n) (x : ℚ) : clampIndex n x + 1 < n := by
  unfold clampIndex
  split_ifs <;> omega

theorem clampUnit_nonneg (r : ℚ) : 0 ≤ clampUnit r := le_max_left _ _

theorem lroundByte_le (v : ℚ) : lroundByte v ≤ 255 := by
  unfold lroundByte
  omega

theorem le_lroundByte {v : ℚ} (hl : 252 ≤ v) (hh : v ≤ 255) : 252 ≤ lroundByte v := by
  have h1 : 252 ≤ ⌊v + 1 / 2⌋ := Int.le_floor.2 (by push_cast; linarith)
  have h2 : ⌊v + 1 / 2⌋ < 256 := Int.floor_lt.2 (by push_cast; linarith)
  rw [lroundByte, if_pos (by linarith)]
  omega

theorem interpolate_ends {sample : ℕ → ℕ → Except ImageError ℕ} {v : ℕ → ℕ → ℕ} {rx ry : ℚ}
    (hv : ∀ dx ≤ 1, ∀ dy ≤ 1, sample dx dy = .ok (v dx dy) ∧ v dx dy ≤ 255) (hrx : 0 ≤ rx) (hry : 0 ≤ ry) :
    Ends (interpolate sample rx ry) (fun r => r ≤ 255 ∧ ((∀ dx dy, v dx dy = 255) → 252 ≤ r)) fun _ => False := by
  have h00 := hv 0 (by decide) 0 (by decide)
  have h10 := (hv 1 (by decide) 0 (by decide)).1
  have h01 := (hv 0 (by decide) 1 (by decide)).1
  have h11 := (hv 1 (by decide) 1 (by decide)).1
  simp only [interpolate, h00.1, h10, h01, h11]
  split_ifs with hcr hc hr
  · exact ⟨h00.2, fun ha => by rw [ha]; decide⟩
  · refine ⟨lroundByte_le _, fun ha => ?_⟩
    simp only [threshold] at hc
    rw [ha, ha]
    apply le_lroundByte <;> push_cast <;> linarith
  · refine ⟨lroundByte_le _, fun ha => ?_⟩
    simp only [threshold] at hr
    rw [ha, ha]
    apply le_lroundByte <;> push_cast <;> linarith
  · refine ⟨lroundByte_le _, fun ha => ?_⟩
    rw [ha, ha, ha, ha]
    apply le_lroundByte <;> push_cast <;> linarith

theorem bilinn_ends {f : Frame} {b : Buffer ℕ} {c : ℕ} (hb : Holds f 255 b) (hc : c < f.nc) (x y : ℚ) :
    Ends (bilinn b f.nx f.ny x y c f.nc) (fun v => v ≤ 255 ∧ ((∀ p, b.get p = 255) → 252 ≤ v)) fun _ => False := by
  unfold bilinn
  split_ifs with hs
  · have hlt : c < b.size := by
      rw [hb.size, Frame.samples]
      exact hc.trans_le (Nat.le_mul_of_pos_left _ (Nat.mul_pos f.nx_pos f.ny_pos))
    rw [Buffer.fetch_of_lt _ hlt]
    exact ⟨hb.le c, fun ha => by rw [ha]; decide⟩
  · rw [not_or, not_lt, not_lt] at hs
    have hix := clampIndex_lt hs.1 x
    have hiy := clampIndex_lt hs.2 y
    refine (interpolate_ends
      (v := fun dx dy => b.get (index f.nx f.nc (clampIndex f.nx x + dx) (clampIndex f.ny y + dy) c))
      (fun dx hdx dy hdy => ⟨Buffer.fetch_of_lt _ ?_, hb.le _⟩) (clampUnit_nonneg _)
      (clampUnit_nonneg _)).imp fun r hr => ⟨hr.1, fun ha => hr.2 fun _ _ => ha _⟩
    rw [hb.size]
    exact index_lt (by omega) (by omega) hc

/-! ### Adding a watermark -/

section
variable (f wm : Frame)

/-- How far apart pixels are in the watermark. -/
def wmScale : ℚ :=
  if (f.nx : ℚ) / f.ny < (wm.nx : ℚ) / wm.ny then (wm.nx : ℚ) / f.nx else (wm.ny : ℚ) / f.ny

/-- The column of the watermark over column `i`. -/
def wmI (i : ℕ) : ℚ := (i - f.nx / 2) * wmScale f wm + wm.nx / 2

/-- The row of the watermark over row `j`. -/
def wmJ (j : ℕ) : ℚ := (j - f.ny / 2) * wmScale f wm + wm.ny / 2

/-- The pixel lies under the watermark. -/
def Footprint (i j : ℕ) : Prop :=
  |wmI f wm i - wm.nx / 2| < (wm.nx : ℚ) / 2 ∧ |wmJ f wm j - wm.ny / 2| < (wm.ny : ℚ) / 2

instance (i j : ℕ) : Decidable (Footprint f wm i j) := inferInstanceAs (Decidable (_ ∧ _))

variable (wmbuf : Buffer ℕ)

/-- The watermark over a pixel, interpolated. -/
def wmSample (i j c : ℕ) : Except ImageError ℕ := bilinn wmbuf wm.nx wm.ny (wmI f wm i) (wmJ f wm j) c wm.nc

/-- `wm_alpha`. -/
def wmAlpha (i j : ℕ) : Except ImageError ℕ := if wm.nc = 4 then wmSample f wm wmbuf i j 3 else .ok 1

end

/-- A sample with the watermark over it. -/
def blend (s alpha w : ℕ) : ℕ :=
  let weak : ℚ := alpha / 255 * (8 / 10)
  ⌊max 0 (min ((s / 255 * (1 - weak) + w / 255 * weak) * 255) 255)⌋₊

/-- The body of the loop: one sample. -/
def blendSample (f wm : Frame) (wmbuf : Buffer ℕ) (i j k : ℕ) (buf : Buffer ℕ) : Except ImageError (Buffer ℕ) :=
  if Footprint f wm i j then do
    let alpha ← wmAlpha f wm wmbuf i j
    let w ← wmSample f wm wmbuf i j (k % wm.nc)
    let s ← buf.fetch .overrun (index f.nx f.nc i j k)
    buf.put .overrun (index f.nx f.nc i j k) (blend s alpha w)
  else .ok buf

/-- `add_watermark`, once it is read. -/
def addWatermark (f : Frame) (bps : Depth) (pixels : Buffer ℕ) (wm : Frame) (wmbuf : Buffer ℕ) :
    Except ImageError (Buffer ℕ) :=
  match bps with
  | .eight => forSamples f.nx f.ny f.nc (blendSample f wm wmbuf) pixels
  -- sixteen bits are left unimplemented
  | .sixteen => .ok pixels

/-- `SipiImage::add_watermark`. -/
def addWatermarkFile (f : Frame) (bps : Depth) (pixels : Buffer ℕ) (file : Option WatermarkFile) :
    Except ImageError (Buffer ℕ) := do
  let (wm, wmbuf) ← readWatermark file
  addWatermark f bps pixels wm wmbuf

/-- What a watermark is to make of a sample. -/
def marked (top s w : ℕ) (a : ℚ) : ℕ := ⌊(1 - 8 / 10 * a) * s + 8 / 10 * a * w * top / 255⌋₊

/-- How opaque the watermark is to be. -/
def opacity (f wm : Frame) (wmbuf : Buffer ℕ) (i j : ℕ) : Except ImageError ℚ :=
  if wm.nc = 4 then (wmSample f wm wmbuf i j 3).map fun alpha => (alpha : ℚ) / 255 else .ok 1

/-- What lies under the watermark is marked. -/
def Applied (f : Frame) (bps : Depth) (pixels : Buffer ℕ) (wm : Frame) (wmbuf : Buffer ℕ) : Prop :=
  ∃ out, addWatermark f bps pixels wm wmbuf = .ok out ∧ out.size = pixels.size ∧
    ∀ i < f.nx, ∀ j < f.ny, ∀ k < f.nc,
      (¬ Footprint f wm i j → out.get (index f.nx f.nc i j k) = pixels.get (index f.nx f.nc i j k)) ∧
      (Footprint f wm i j → ∃ w a, wmSample f wm wmbuf i j (k % wm.nc) = .ok w ∧ opacity f wm wmbuf i j = .ok a ∧
        out.get (index f.nx f.nc i j k) = marked bps.fullScale (pixels.get (index f.nx f.nc i j k)) w a)

section
variable {f wm : Frame} {pixels wmbuf : Buffer ℕ}

/-- What the loop makes of a sample. -/
def result (f wm : Frame) (pixels wmbuf : Buffer ℕ) (i j k v : ℕ) : Prop :=
  (¬ Footprint f wm i j → v = pixels.get (index f.nx f.nc i j k)) ∧
  (Footprint f wm i j → ∃ w alpha, wmSample f wm wmbuf i j (k % wm.nc) = .ok w ∧ wmAlpha f wm wmbuf i j = .ok alpha ∧
    v = blend (pixels.get (index f.nx f.nc i j k)) alpha w)

/-- The samples before `q` are done. -/
structure Done (f wm : Frame) (pixels wmbuf : Buffer ℕ) (q : ℕ) (buf : Buffer ℕ) : Prop where
  size : buf.size = pixels.size
  rest : ∀ p, q ≤ p → buf.get p = pixels.get p
  done : ∀ i < f.nx, ∀ j, ∀ k < f.nc, index f.nx f.nc i j k < q →
    result f wm pixels wmbuf i j k (buf.get (index f.nx f.nc i j k))

theorem wmSample_ends (hwm : Holds wm 255 wmbuf) (i j : ℕ) {c : ℕ} (hc : c < wm.nc) :
    ∃ w, wmSample f wm wmbuf i j c = .ok w ∧ w ≤ 255 ∧ ((∀ p, wmbuf.get p = 255) → 252 ≤ w) :=
  (bilinn_ends hwm hc (wmI f wm i) (wmJ f wm j)).exists_ok

theorem wmAlpha_ends (hwm : Holds wm 255 wmbuf) (i j : ℕ) :
    ∃ alpha, wmAlpha f wm wmbuf i j = .ok alpha ∧ alpha ≤ 255 := by
  unfold wmAlpha
  split_ifs with h4
  · obtain ⟨w, hw, hle, -⟩ := wmSample_ends (f := f) hwm i j (show 3 < wm.nc by omega)
    exact ⟨w, hw, hle⟩
  · exact ⟨1, rfl, by decide⟩

theorem Done.set {i j k v : ℕ} {buf : Buffer ℕ} (h : Done f wm pixels wmbuf (index f.nx f.nc i j k) buf)
    (hi : i < f.nx) (hk : k < f.nc) (hv : result f wm pixels wmbuf i j k v) :
    Done f wm pixels wmbuf (index f.nx f.nc i j k + 1) (buf.set (index f.nx f.nc i j k) v) where
  size := h.size
  rest p hp := by
    rw [Buffer.get_set_of_ne _ (by omega)]
    exact h.rest p (by omega)
  done i' hi' j' k' hk' hlt := by
    by_cases heq : index f.nx f.nc i' j' k' = index f.nx f.nc i j k
    · obtain ⟨rfl, rfl, rfl⟩ := index_inj hi' hk' hi hk heq
      rwa [Buffer.get_set_self]
    · rw [Buffer.get_set_of_ne _ heq]
      exact h.done i' hi' j' k' hk' (by omega)

theorem Done.skip {i j k : ℕ} {buf : Buffer ℕ} (h : Done f wm pixels wmbuf (index f.nx f.nc i j k) buf)
    (hi : i < f.nx)
    (hk : k < f.nc) (ho : ¬ Footprint f wm i j) : Done f wm pixels wmbuf (index f.nx f.nc i j k + 1) buf where
  size := h.size
  rest p hp := h.rest p (by omega)
  done i' hi' j' k' hk' hlt := by
    by_cases heq : index f.nx f.nc i' j' k' = index f.nx f.nc i j k
    · obtain ⟨rfl, rfl, rfl⟩ := index_inj hi' hk' hi hk heq
      exact ⟨fun _ => h.rest _ le_rfl, fun hin => absurd hin ho⟩
    · exact h.done i' hi' j' k' hk' (by omega)

theorem addWatermark_ends (hp : pixels.size = f.samples) (hwm : Holds wm 255 wmbuf) :
    Ends (addWatermark f .eight pixels wm wmbuf) (Done f wm pixels wmbuf f.samples) fun _ => False := by
  refine forSamples_ends (Done f wm pixels wmbuf) ⟨rfl, fun _ _ => rfl, nofun⟩ fun i hi j hj k hk buf hb => ?_
  unfold blendSample
  split_ifs with hin
  · have hlt : index f.nx f.nc i j k < buf.size := by
      rw [hb.size, hp]
      exact index_lt hi hj hk
    obtain ⟨alpha, ha, -⟩ := wmAlpha_ends (f := f) hwm i j
    obtain ⟨w, hw, -⟩ := wmSample_ends (f := f) hwm i j (Nat.mod_lt k wm.nc_pos)
    rw [ha, hw, Buffer.fetch_of_lt _ hlt]
    have hpt := Buffer.put_of_lt ImageError.overrun hlt (blend (buf.get (index f.nx f.nc i j k)) alpha w)
    simp only [ok_bind, hpt, ends_ok]
    refine hb.set hi hk ⟨fun ho => absurd hin ho, fun _ => ⟨w, alpha, hw, ha, ?_⟩⟩
    rw [hb.rest _ le_rfl]
  · exact hb.skip hi hk hin

theorem blend_eq {s alpha w : ℕ} (hs : s ≤ 255) (ha : alpha ≤ 255) (hw : w ≤ 255) :
    blend s alpha w = marked 255 s w ((alpha : ℚ) / 255) := by
  have hs' : (s : ℚ) ≤ 255 := by exact_mod_cast hs
  have hw' : (w : ℚ) ≤ 255 := by exact_mod_cast hw
  have ha' : (alpha : ℚ) ≤ 255 := by exact_mod_cast ha
  set weak : ℚ := alpha / 255 * (8 / 10) with hwk
  have hw0 : 0 ≤ weak := by positivity
  have hw1 : weak ≤ 1 := by rw [hwk]; linarith
  have hm : ((s : ℚ) / 255 * (1 - weak) + w / 255 * weak) * 255 = (1 - weak) * s + weak * w := by ring
  have hl : 0 ≤ (1 - weak) * s + weak * w := by
    have := sub_nonneg.2 hw1
    positivity
  have hh : (1 - weak) * s + weak * w ≤ 255 := by
    calc (1 - weak) * s + weak * w ≤ (1 - weak) * 255 + weak * 255 :=
          add_le_add (mul_le_mul_of_nonneg_left hs' (sub_nonneg.2 hw1)) (mul_le_mul_of_nonneg_left hw' hw0)
      _ = 255 := by ring
  rw [blend, marked, ← hwk, hm, min_eq_left hh, max_eq_right hl, hwk]
  congr 1
  push_cast
  ring

theorem opacity_of_alpha (h4 : wm.nc = 4) {i j alpha : ℕ} (h : wmAlpha f wm wmbuf i j = .ok alpha) :
    opacity f wm wmbuf i j = .ok ((alpha : ℚ) / 255) := by
  rw [wmAlpha, if_pos h4] at h
  rw [opacity, if_pos h4, h]
  rfl

theorem opacity_ge (hwm : Holds wm 255 wmbuf) (ha : ∀ p, wmbuf.get p = 255) {i j : ℕ} {a : ℚ}
    (h : opacity f wm wmbuf i j = .ok a) : 252 / 255 ≤ a := by
  unfold opacity at h
  split_ifs at h with h4
  · obtain ⟨w, hw, -, hge⟩ := wmSample_ends (f := f) hwm i j (show 3 < wm.nc by omega)
    rw [hw] at h
    obtain rfl : (w : ℚ) / 255 = a := Except.ok.inj h
    have : (252 : ℚ) ≤ w := by exact_mod_cast hge ha
    linarith
  · cases h
    norm_num

theorem marked_pos (top : ℕ) {w : ℕ} {a : ℚ} (ht : 255 ≤ top) (hw : 252 ≤ w) (ha : 252 / 255 ≤ a) :
    0 < marked top 0 w a := by
  have ht' : (255 : ℚ) ≤ top := by exact_mod_cast ht
  have hw' : (252 : ℚ) ≤ w := by exact_mod_cast hw
  refine Nat.floor_pos.2 ?_
  have haw : 252 / 255 * 252 ≤ a * w := mul_le_mul ha hw' (by norm_num) (by linarith)
  have hal : 252 / 255 * 252 * 255 ≤ a * w * top := mul_le_mul haw ht' (by norm_num) (by linarith)
  have : (1 : ℚ) ≤ 8 / 10 * (a * w * top) / 255 := by linarith
  calc (1 : ℚ) ≤ 8 / 10 * (a * w * top) / 255 := this
    _ = (1 - 8 / 10 * a) * (0 : ℕ) + 8 / 10 * a * w * top / 255 := by push_cast; ring

theorem blend_one {w : ℕ} (hw : w ≤ 255) : blend 0 1 w = 0 := by
  have hw' : (w : ℚ) ≤ 255 := by exact_mod_cast hw
  rw [blend]
  refine Nat.floor_eq_zero.2 (max_lt one_pos (min_lt_of_left_lt ?_))
  push_cast
  linarith

end

/-- **A watermark is applied as it is meant to**, to every image and from every watermark of the given
sides and channels, exactly if the image has eight bits and the watermark four channels, or if nothing
lies under it. -/
theorem applied_iff (f : Frame) (bps : Depth) (wm : Frame) :
    (∀ pixels wmbuf, Holds f bps.fullScale pixels → Holds wm 255 wmbuf → Applied f bps pixels wm wmbuf) ↔
      (bps = .eight ∧ wm.nc = 4) ∨ ∀ i < f.nx, ∀ j < f.ny, ¬ Footprint f wm i j := by
  constructor
  · -- a black image under a white watermark
    intro hap
    by_contra hc
    rw [not_or] at hc
    obtain ⟨hkn, hsm⟩ := hc
    push Not at hsm
    obtain ⟨i, hi, j, hj, hin⟩ := hsm
    have hwm : Holds wm 255 (.const wm.samples 255) := ⟨rfl, fun _ => le_rfl⟩
    have hb : Holds f bps.fullScale (.const f.samples 0) := ⟨rfl, fun _ => Nat.zero_le _⟩
    obtain ⟨out, ho, -, hm⟩ := hap _ _ hb hwm
    obtain ⟨w, a, hw, ha, hv⟩ := (hm i hi j hj 0 f.nc_pos).2 hin
    obtain ⟨w', hw', hle, hge⟩ := wmSample_ends (f := f) hwm i j (Nat.mod_lt 0 wm.nc_pos)
    cases hw.symm.trans hw'
    have hps := marked_pos bps.fullScale (by cases bps <;> decide) (hge fun _ => rfl)
      (opacity_ge hwm (fun _ => rfl) ha)
    rw [Buffer.const_get] at hv
    cases bps with
    | sixteen =>
      cases ho
      rw [Buffer.const_get] at hv
      omega
    | eight =>
      have hd := (addWatermark_ends hb.size hwm).of_ok ho
      obtain ⟨w'', alpha, hw'', hal, hbl⟩ := (hd.done i hi j 0 f.nc_pos (index_lt hi hj f.nc_pos)).2 hin
      cases hw.symm.trans hw''
      rw [wmAlpha, if_neg fun h4 => hkn ⟨rfl, h4⟩] at hal
      cases hal
      rw [Buffer.const_get, blend_one hle] at hbl
      omega
  · rintro hc pixels wmbuf hp hwm
    cases bps with
    | sixteen =>
      have hn := hc.resolve_left (by simp)
      exact ⟨pixels, rfl, rfl, fun i hi j hj k hk => ⟨fun _ => rfl, fun hin => absurd hin (hn i hi j hj)⟩⟩
    | eight =>
      obtain ⟨out, ho, hd⟩ := (addWatermark_ends hp.size hwm).exists_ok
      refine ⟨out, ho, hd.size, fun i hi j hj k hk => ?_⟩
      have hs := hd.done i hi j k hk (index_lt hi hj hk)
      refine ⟨hs.1, fun hin => ?_⟩
      rcases hc with ⟨-, h4⟩ | hn
      · obtain ⟨w, alpha, hw, hal, hv⟩ := hs.2 hin
        refine ⟨w, (alpha : ℚ) / 255, hw, opacity_of_alpha h4 hal, ?_⟩
        obtain ⟨w', hw', hwl, -⟩ := wmSample_ends (f := f) hwm i j (Nat.mod_lt k wm.nc_pos)
        cases hw.symm.trans hw'
        obtain ⟨alpha', ha', hA⟩ := wmAlpha_ends (f := f) hwm i j
        cases hal.symm.trans ha'
        rw [hv]
        exact blend_eq (hp.le _) hA hwl
      · exact absurd hin (hn i hi j hj)

theorem readWatermark_ends {w : WatermarkFile} (hbytes : ∀ i line, w.scanline i = some line → ∀ p, line.get p ≤ 255) :
    Ends (readWatermark (some w)) (fun r => r.1 = w.frame ∧ Holds w.frame 255 r.2) (· = .unreadable) := by
  have hsz : w.frame.ny * (w.frame.nx * w.frame.nc) = w.frame.samples := by
    rw [Frame.samples]
    ring
  rw [readWatermark]
  split_ifs
  · rfl
  · refine Ends.map (Q := Holds w.frame 255) ?_ fun buf hb => ⟨rfl, hb⟩
    refine forCount_ends (fun _ => Holds w.frame 255) ⟨hsz, fun _ => Nat.zero_le _⟩ fun i buf hi hb => ?_
    cases hl : w.scanline i with
    | none => rfl
    | some line =>
      have hr : w.frame.nx * w.frame.nc * i + w.frame.nx * w.frame.nc ≤ buf.size := by
        rw [hb.size, ← hsz, ← Nat.mul_succ, Nat.mul_comm w.frame.ny]
        exact Nat.mul_le_mul_left _ hi
      dsimp only
      rw [Buffer.copy_of_le _ hr]
      refine ⟨hb.size, fun p => ?_⟩
      simp only [Buffer.blit]
      split_ifs
      · exact hbytes i line hl _
      · exact hb.le p

theorem addWatermarkFile_ends {f : Frame} {pixels : Buffer ℕ} (bps : Depth) (hp : pixels.size = f.samples)
    {w : WatermarkFile} (hbytes : ∀ i line, w.scanline i = some line → ∀ p, line.get p ≤ 255) :
    Ends (addWatermarkFile f bps pixels (some w)) (fun out => out.size = pixels.size) (· = .unreadable) := by
  refine (readWatermark_ends hbytes).bind ?_
  rintro ⟨wm, wmbuf⟩ ⟨rfl, hwm⟩
  cases bps with
  | eight => exact (addWatermark_ends hp hwm).mono (fun out ho => ho.size) fun _ hf => hf.elim
  | sixteen => rfl

def fourPixels : Frame := { nx := 2, ny := 2, nc := 1 }

theorem white_mark_is_lost :
    Footprint fourPixels fourPixels 1 1 ∧ wmSample fourPixels fourPixels (.const 4 255) 1 1 0 = .ok 255 ∧
      marked 255 0 255 1 = 204 ∧
      (addWatermark fourPixels .eight (.const 4 0) fourPixels (.const 4 255)).map (·.get 3) = .ok 0 ∧
      (addWatermark fourPixels .sixteen (.const 4 0) fourPixels (.const 4 255)).map (·.get 3) = .ok 0 := by
  decide +kernel

end Sipi.Image
