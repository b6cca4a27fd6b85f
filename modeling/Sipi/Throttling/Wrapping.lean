import Sipi.Geometry.Rotation
import Sipi.Throttling.PeakMemory

/-!
# Sums that wrap around in the estimate

`estimate_peak_memory` clamps the bytes of every buffer to the largest number of type `size_t`, which "prevents a
wrapped-to-small estimate from bypassing the budget".

## Honest scope

Squares and square roots are exact. A diagonal of `2 ^ 64` or more has no value of type `size_t`; what the
conversion gives is a parameter. An angle that does not fit into an `int` becomes the least one.
-/

namespace Sipi.Throttling

open Sipi.Theory Sipi.Geometry

/-- `needs_scale`, `needs_rotate` and `needs_icc`. -/
@[ext] structure Steps where
  /-- The image is scaled. -/
  scale : Bool
  /-- It is rotated. -/
  rotate : Bool
  /-- Its colours are converted. -/
  icc : Bool

/-- The bytes of the buffers. -/
structure Sizes where
  decode : ℕ
  scaled : ℕ
  rotated : ℕ
  final : ℕ

namespace Steps

variable (s : Steps) (z : Sizes)

/-- `rotate_input`: the buffer after scaling. -/
def rotateInput : ℕ := if s.scale then z.scaled else z.decode

/-- `icc_input`: the buffer after rotating. -/
def iccInput : ℕ := if s.rotate then z.rotated else s.rotateInput z

/-- The largest of the steps, for an addition. -/
def peakOf (add : ℕ → ℕ → ℕ) : ℕ :=
  max (max (max z.decode (if s.scale then add (add z.decode z.scaled) (z.scaled / 2) else 0))
    (if s.rotate then add (s.rotateInput z) z.rotated else 0))
    (if s.icc then add (s.iccInput z) z.final else 0)

end Steps

/-! ### The arguments -/

/-- The arguments of the function. -/
structure Ask where
  decodeW : ℕ
  decodeH : ℕ
  outW : ℕ
  outH : ℕ
  decodeW_lt : decodeW < 2 ^ 64
  decodeH_lt : decodeH < 2 ^ 64
  outW_lt : outW < 2 ^ 64
  outH_lt : outH < 2 ^ 64
  nc : ℤ
  nc_lt : nc < 2 ^ 31
  bps : ℤ
  bps_lt : bps < 2 ^ 31
  rotation : double.Value
  needsIcc : Bool

/-- A `double` as an `int`. -/
def castInt : double.Value → ℤ
  | .finite q _ =>
    let t := if 0 ≤ q then ⌊q⌋ else ⌈q⌉
    if -2 ^ 31 ≤ t ∧ t < 2 ^ 31 then t else -2 ^ 31
  | _ => -2 ^ 31

/-- A number as a `size_t`, if it is one. -/
def castSize (junk n : ℕ) : ℕ := if n < 2 ^ 64 then n else junk

namespace Ask

/-- The width after scaling, zero for none. -/
def width (a : Ask) : ℕ := if a.outW = 0 then a.decodeW else a.outW

/-- The height after scaling. -/
def height (a : Ask) : ℕ := if a.outH = 0 then a.decodeH else a.outH

/-- `bytes_per_pixel`. -/
def bytesPerPixel (a : Ask) : ℕ := (if 0 < a.nc then a.nc.toNat else 4) * bytesPerSample a.bps.toNat % 2 ^ 64

/-- `rot_int`. -/
def rotInt (a : Ask) : ℤ :=
  let r := (castInt a.rotation).tmod 360
  if r < 0 then r + 360 else r

/-- The steps that are taken. -/
def steps (a : Ask) : Steps :=
  ⟨decide (a.width ≠ a.decodeW ∨ a.height ≠ a.decodeH), decide (a.rotInt ≠ 0), a.needsIcc⟩

/-- The buffers, for these sides after rotating. -/
def sizes (a : Ask) (rot : ℕ × ℕ) : Sizes where
  decode := safeBuf a.decodeW a.decodeH a.bytesPerPixel
  scaled := safeBuf a.width a.height a.bytesPerPixel
  rotated := safeBuf rot.1 rot.2 a.bytesPerPixel
  final := if a.needsIcc then safeBuf rot.1 rot.2 a.bytesPerPixel else 0

/-- The sides after rotating, exact. -/
def exactSides (a : Ask) : ℕ × ℕ := rotSides a.width a.height a.rotInt

/-- `rot_w` and `rot_h`, as `size_t`s. -/
def sides (junk : ℕ) (a : Ask) : ℕ × ℕ :=
  if a.rotInt = 90 ∨ a.rotInt = 270 then a.exactSides
  else if a.rotInt ≠ 0 ∧ a.rotInt ≠ 180 then (castSize junk a.exactSides.1, castSize junk a.exactSides.2)
  else a.exactSides

/-- `estimate_peak_memory`. -/
def estimate (junk : ℕ) (a : Ask) : ℕ := a.steps.peakOf (a.sizes (a.sides junk)) sizeAdd

/-- The estimate with sums that have no bound. -/
def peak (a : Ask) : ℕ := a.steps.peakOf (a.sizes a.exactSides) (· + ·)

end Ask

theorem safeBuf_eq_min {bpp : ℕ} (hb : 0 < bpp) (w h : ℕ) : safeBuf w h bpp = min (w * h * bpp) sizeMax := by
  rcases Nat.le_total (w * h * bpp) sizeMax with hf | hl
  · rw [safeBuf_eq hb hf, min_eq_left hf]
  · rw [min_eq_right hl]
    unfold safeBuf
    split_ifs with hz hw hp
    · rcases hz with rfl | rfl <;> simp [sizeMax] at hl
    · rfl
    · rfl
    · rw [not_lt, Nat.le_div_iff_mul_le hb] at hp
      exact Nat.le_antisymm hp hl

theorem safeBuf_mono {bpp w h w' h' : ℕ} (hb : 0 < bpp) (hw : w ≤ w') (hh : h ≤ h') :
    safeBuf w h bpp ≤ safeBuf w' h' bpp := by
  rw [safeBuf_eq_min hb, safeBuf_eq_min hb]
  exact min_le_min_right _ (Nat.mul_le_mul_right _ (Nat.mul_le_mul hw hh))

theorem ceilSqrt_le_iff {n k : ℕ} : ceilSqrt n ≤ k ↔ n ≤ k * k := by
  constructor
  · intro h
    exact (le_ceilSqrt_sq n).trans (Nat.mul_self_le_mul_self h)
  · intro h
    have hs : n.sqrt ≤ k := by
      have := Nat.sqrt_le_sqrt h
      rwa [Nat.sqrt_eq] at this
    unfold ceilSqrt
    split_ifs with hsq
    · exact hs
    · refine Nat.lt_of_le_of_ne hs fun heq => hsq ?_
      exact Nat.le_antisymm (Nat.sqrt_le n) (by rwa [heq])

theorem ceilSqrt_mono {m n : ℕ} (h : m ≤ n) : ceilSqrt m ≤ ceilSqrt n :=
  ceilSqrt_le_iff.2 (h.trans (le_ceilSqrt_sq n))

theorem rotSides_mono {w h w' h' : ℕ} (hw : w ≤ w') (hh : h ≤ h') (rot : ℤ) :
    (rotSides w h rot).1 ≤ (rotSides w' h' rot).1 ∧ (rotSides w h rot).2 ≤ (rotSides w' h' rot).2 := by
  have hd := ceilSqrt_mono (Nat.add_le_add (Nat.mul_self_le_mul_self hw) (Nat.mul_self_le_mul_self hh))
  unfold rotSides
  split_ifs
  · exact ⟨hh, hw⟩
  · exact ⟨hd, hd⟩
  · exact ⟨hw, hh⟩

/-! ### The largest of the steps -/

section
variable {s : Steps} {z z' : Sizes}

theorem sizeAdd_le (a b : ℕ) : sizeAdd a b ≤ a + b := Nat.mod_le _ _

theorem sizeAdd_lt (a b : ℕ) : sizeAdd a b < 2 ^ 64 := Nat.mod_lt _ (by norm_num)

/-- No sum of a step that is taken reaches `2 ^ 64`. -/
structure NoWrap (s : Steps) (z : Sizes) : Prop where
  scale : s.scale = true → z.decode + z.scaled + z.scaled / 2 < 2 ^ 64
  rotate : s.rotate = true → s.rotateInput z + z.rotated < 2 ^ 64
  icc : s.icc = true → s.iccInput z + z.final < 2 ^ 64

/-- Some buffers are no larger than others. -/
structure Sizes.Le (z z' : Sizes) : Prop where
  decode : z.decode ≤ z'.decode
  scaled : z.scaled ≤ z'.scaled
  rotated : z.rotated ≤ z'.rotated
  final : z.final ≤ z'.final

theorem ite_zero_mono {b : Bool} {m n : ℕ} (h : m ≤ n) : (if b then m else 0) ≤ if b then n else 0 := by
  cases b
  · exact le_rfl
  · exact h

theorem rotateInput_mono (h : z.Le z') : s.rotateInput z ≤ s.rotateInput z' := by
  unfold Steps.rotateInput
  split_ifs
  · exact h.scaled
  · exact h.decode

theorem iccInput_mono (h : z.Le z') : s.iccInput z ≤ s.iccInput z' := by
  unfold Steps.iccInput
  split_ifs
  · exact h.rotated
  · exact rotateInput_mono h

theorem peakOf_mono (h : z.Le z') : s.peakOf z (· + ·) ≤ s.peakOf z' (· + ·) := by
  refine max_le_max (max_le_max (max_le_max h.decode (ite_zero_mono ?_)) (ite_zero_mono ?_)) (ite_zero_mono ?_)
  · exact Nat.add_le_add (Nat.add_le_add h.decode h.scaled) (Nat.div_le_div_right h.scaled)
  · exact Nat.add_le_add (rotateInput_mono h) h.rotated
  · exact Nat.add_le_add (iccInput_mono h) h.final

theorem peakOf_sizeAdd_le (s : Steps) (z : Sizes) : s.peakOf z sizeAdd ≤ s.peakOf z (· + ·) := by
  refine max_le_max (max_le_max (max_le_max le_rfl (ite_zero_mono ?_)) (ite_zero_mono ?_)) (ite_zero_mono ?_)
  · exact (sizeAdd_le _ _).trans (Nat.add_le_add_right (sizeAdd_le _ _) _)
  · exact sizeAdd_le _ _
  · exact sizeAdd_le _ _

theorem peakOf_sizeAdd_lt (h : z.decode < 2 ^ 64) : s.peakOf z sizeAdd < 2 ^ 64 := by
  have hs : ∀ {b : Bool} {x y : ℕ}, (if b then sizeAdd x y else 0) < 2 ^ 64 := by
    intro b x y
    split_ifs
    · exact sizeAdd_lt _ _
    · norm_num
  exact max_lt (max_lt (max_lt h hs) hs) hs

theorem noWrap_of_lt (h : s.peakOf z (· + ·) < 2 ^ 64) : NoWrap s z := by
  rw [Steps.peakOf, max_lt_iff, max_lt_iff, max_lt_iff] at h
  obtain ⟨⟨⟨-, hsc⟩, hr⟩, hi⟩ := h
  exact ⟨fun hs => by rwa [if_pos hs] at hsc, fun hs => by rwa [if_pos hs] at hr,
    fun hs => by rwa [if_pos hs] at hi⟩

theorem NoWrap.peakOf_eq (h : NoWrap s z) : s.peakOf z sizeAdd = s.peakOf z (· + ·) := by
  have hsm : ∀ {x y : ℕ}, x + y < 2 ^ 64 → sizeAdd x y = x + y := Nat.mod_eq_of_lt
  have hi : ∀ {b : Bool} {m n : ℕ}, (b = true → m = n) → (if b then m else 0) = if b then n else 0 := by
    intro b m n heq
    cases b
    · rfl
    · exact heq rfl
  have hsc : s.scale = true →
      sizeAdd (sizeAdd z.decode z.scaled) (z.scaled / 2) = z.decode + z.scaled + z.scaled / 2 := by
    intro hs
    have hlt := h.scale hs
    have hf : sizeAdd z.decode z.scaled = z.decode + z.scaled := hsm (by omega)
    rw [hf, hsm hlt]
  unfold Steps.peakOf
  rw [hi hsc, hi fun hs => hsm (h.rotate hs), hi fun hs => hsm (h.icc hs)]

end

namespace Ask

variable {a b : Ask} {junk : ℕ}

theorem width_lt (a : Ask) : a.width < 2 ^ 64 := by
  unfold width
  split_ifs
  · exact a.decodeW_lt
  · exact a.outW_lt

theorem height_lt (a : Ask) : a.height < 2 ^ 64 := by
  unfold height
  split_ifs
  · exact a.decodeH_lt
  · exact a.outH_lt

theorem bytesPerPixel_eq (a : Ask) :
    a.bytesPerPixel = (if 0 < a.nc then a.nc.toNat else 4) * bytesPerSample a.bps.toNat := by
  have hnc := a.nc_lt
  have hbp := a.bps_lt
  have hc : (if 0 < a.nc then a.nc.toNat else 4) ≤ 2 ^ 31 := by
    split_ifs <;> omega
  have hb : bytesPerSample a.bps.toNat ≤ 2 ^ 31 := by
    unfold bytesPerSample
    omega
  exact Nat.mod_eq_of_lt ((Nat.mul_le_mul hc hb).trans_lt (by norm_num))

theorem bytesPerPixel_pos (a : Ask) : 0 < a.bytesPerPixel := by
  rw [bytesPerPixel_eq]
  refine Nat.mul_pos ?_ (lt_of_lt_of_le Nat.one_pos (le_max_right _ _))
  split_ifs <;> omega

theorem scaled_eq_of_not (h : ¬ a.steps.scale = true) (rot : ℕ × ℕ) :
    (a.sizes rot).scaled = (a.sizes rot).decode := by
  simp only [steps, decide_eq_true_eq, not_or, not_not] at h
  simp only [sizes, h.1, h.2]

theorem rotateInput_eq (a : Ask) (rot : ℕ × ℕ) : a.steps.rotateInput (a.sizes rot) = (a.sizes rot).scaled := by
  unfold Steps.rotateInput
  split_ifs with hs
  · rfl
  · exact (scaled_eq_of_not hs rot).symm

theorem rotated_eq_of_not (h : ¬ a.steps.rotate = true) :
    (a.sizes (a.sides junk)).rotated = (a.sizes (a.sides junk)).scaled := by
  simp only [steps, decide_eq_true_eq, not_not] at h
  simp [sizes, sides, exactSides, rotSides, h]

theorem diagonal_lt (h : NoWrap a.steps (a.sizes a.exactSides))
    (ht : ¬ (a.rotInt = 90 ∨ a.rotInt = 270) ∧ (a.rotInt ≠ 0 ∧ a.rotInt ≠ 180)) :
    ceilSqrt (a.width * a.width + a.height * a.height) < 2 ^ 64 := by
  by_contra hl
  have hs : a.exactSides = (ceilSqrt (a.width * a.width + a.height * a.height),
      ceilSqrt (a.width * a.width + a.height * a.height)) := by
    rw [exactSides, rotSides, if_neg ht.1, if_pos ht.2]
  have hr := h.rotate (decide_eq_true ht.2.1)
  rw [rotateInput_eq, hs] at hr
  set diagonal := ceilSqrt (a.width * a.width + a.height * a.height) with hd
  -- a rectangle without an area has no such diagonal
  have hw : 0 < a.width := by
    by_contra hz
    have hsd : diagonal ≤ a.height := ceilSqrt_le_iff.2 (by rw [Nat.eq_zero_of_not_pos hz]; simp)
    have := a.height_lt
    omega
  have hh : 0 < a.height := by
    by_contra hz
    have hsd : diagonal ≤ a.width := ceilSqrt_le_iff.2 (by rw [Nat.eq_zero_of_not_pos hz]; simp)
    have := a.width_lt
    omega
  have hsc : 1 ≤ safeBuf a.width a.height a.bytesPerPixel := by
    rw [safeBuf_eq_min a.bytesPerPixel_pos]
    exact le_min (Nat.mul_pos (Nat.mul_pos hw hh) a.bytesPerPixel_pos) (by norm_num [sizeMax])
  have hrt : safeBuf diagonal diagonal a.bytesPerPixel = sizeMax := by
    rw [safeBuf_eq_min a.bytesPerPixel_pos, min_eq_right]
    calc sizeMax ≤ diagonal := by
          rw [sizeMax]
          omega
      _ ≤ diagonal * diagonal := Nat.le_mul_self _
      _ ≤ diagonal * diagonal * a.bytesPerPixel := Nat.le_mul_of_pos_right _ a.bytesPerPixel_pos
  simp only [sizes, hrt, sizeMax] at hr
  omega

theorem sides_eq (h : ¬ (a.rotInt = 90 ∨ a.rotInt = 270) ∧ (a.rotInt ≠ 0 ∧ a.rotInt ≠ 180) →
    ceilSqrt (a.width * a.width + a.height * a.height) < 2 ^ 64) (junk : ℕ) : a.sides junk = a.exactSides := by
  unfold sides
  split_ifs with hr ht
  · rfl
  · have hlt := h ⟨hr, ht⟩
    rw [exactSides, rotSides, if_neg hr, if_pos ht]
    simp only [castSize, if_pos hlt]
  · rfl

/-- The images are no larger. -/
structure Smaller (b a : Ask) : Prop where
  decodeW : b.decodeW ≤ a.decodeW
  decodeH : b.decodeH ≤ a.decodeH
  width : b.width ≤ a.width
  height : b.height ≤ a.height
  nc : b.nc = a.nc
  bps : b.bps = a.bps
  rotation : b.rotation = a.rotation
  needsIcc : b.needsIcc = a.needsIcc
  scale : b.steps.scale = a.steps.scale

namespace Smaller

theorem rotInt_eq (h : Smaller b a) : b.rotInt = a.rotInt := by rw [rotInt, rotInt, h.rotation]

theorem bytesPerPixel_eq (h : Smaller b a) : b.bytesPerPixel = a.bytesPerPixel := by
  rw [bytesPerPixel, bytesPerPixel, h.nc, h.bps]

theorem steps_eq (h : Smaller b a) : b.steps = a.steps := by
  have hr : b.steps.rotate = a.steps.rotate := by simp only [steps, h.rotInt_eq]
  exact Steps.ext h.scale hr h.needsIcc

theorem sizes_le (h : Smaller b a) : (b.sizes b.exactSides).Le (a.sizes a.exactSides) := by
  have hp := a.bytesPerPixel_pos
  obtain ⟨hw, hh⟩ := rotSides_mono h.width h.height a.rotInt
  have hr : safeBuf b.exactSides.1 b.exactSides.2 b.bytesPerPixel ≤
      safeBuf a.exactSides.1 a.exactSides.2 a.bytesPerPixel := by
    rw [h.bytesPerPixel_eq, exactSides, exactSides, h.rotInt_eq]
    exact safeBuf_mono hp hw hh
  refine ⟨?_, ?_, hr, ?_⟩
  · simp only [sizes, h.bytesPerPixel_eq]
    exact safeBuf_mono hp h.decodeW h.decodeH
  · simp only [sizes, h.bytesPerPixel_eq]
    exact safeBuf_mono hp h.width h.height
  · simp only [sizes, h.needsIcc]
    split_ifs
    · exact hr
    · exact le_rfl

theorem peak_mono (h : Smaller b a) : b.peak ≤ a.peak := by
  rw [peak, peak, h.steps_eq]
  exact peakOf_mono h.sizes_le

theorem sides_eq (h : Smaller b a) (ha : NoWrap a.steps (a.sizes a.exactSides)) (junk : ℕ) :
    b.sides junk = b.exactSides := by
  refine Ask.sides_eq (fun ht => ?_) junk
  rw [h.rotInt_eq] at ht
  refine lt_of_le_of_lt (ceilSqrt_mono ?_) (diagonal_lt ha ht)
  exact Nat.add_le_add (Nat.mul_self_le_mul_self h.width) (Nat.mul_self_le_mul_self h.height)

end Smaller

/-- What the estimate should be. -/
structure Faithful (junk : ℕ) (a : Ask) : Prop where
  exact : a.estimate junk = a.peak
  decode : (a.sizes (a.sides junk)).decode ≤ a.estimate junk
  scaled : (a.sizes (a.sides junk)).scaled ≤ a.estimate junk
  rotated : (a.sizes (a.sides junk)).rotated ≤ a.estimate junk
  mono : ∀ b, Smaller b a → b.estimate junk ≤ a.estimate junk

theorem estimate_lt (junk : ℕ) (a : Ask) : a.estimate junk < 2 ^ 64 := by
  refine peakOf_sizeAdd_lt ?_
  rw [sizes, safeBuf_eq_min a.bytesPerPixel_pos]
  exact (min_le_right _ _).trans_lt (by norm_num [sizeMax])

theorem estimate_eq_peak (h : NoWrap a.steps (a.sizes a.exactSides)) (junk : ℕ) : a.estimate junk = a.peak := by
  rw [estimate, Ask.sides_eq (diagonal_lt h) junk, h.peakOf_eq, peak]

theorem sizes_le_peak (a : Ask) (rot : ℕ × ℕ) :
    (a.sizes rot).decode ≤ a.steps.peakOf (a.sizes rot) (· + ·) ∧
      (a.sizes rot).scaled ≤ a.steps.peakOf (a.sizes rot) (· + ·) ∧
      (a.steps.rotate = true → (a.sizes rot).rotated ≤ a.steps.peakOf (a.sizes rot) (· + ·)) := by
  refine ⟨?_, ?_, fun hr => ?_⟩
  · exact (le_max_left _ _).trans ((le_max_left _ _).trans (le_max_left _ _))
  · by_cases hs : a.steps.scale = true
    · refine le_trans ?_ ((le_max_right _ _).trans ((le_max_left _ _).trans (le_max_left _ _)))
      rw [if_pos hs]
      exact (Nat.le_add_left _ _).trans (Nat.le_add_right _ _)
    · rw [scaled_eq_of_not hs]
      exact (le_max_left _ _).trans ((le_max_left _ _).trans (le_max_left _ _))
  · refine le_trans ?_ ((le_max_right _ _).trans (le_max_left _ _))
    rw [if_pos hr]
    exact Nat.le_add_left _ _

/-! ### The sums in terms of the arguments -/

/-- The bytes as read, without a bound. -/
def decodeBytes (a : Ask) : ℕ := a.decodeW * a.decodeH * a.bytesPerPixel

/-- The bytes of the scaled image. -/
def scaledBytes (a : Ask) : ℕ := a.width * a.height * a.bytesPerPixel

/-- The bytes of the rotated image. -/
def rotatedBytes (a : Ask) : ℕ := a.exactSides.1 * a.exactSides.2 * a.bytesPerPixel

/-- Together they have less than `2 ^ 64` bytes. -/
structure SumsFit (a : Ask) : Prop where
  scale : a.width ≠ a.decodeW ∨ a.height ≠ a.decodeH →
    a.decodeBytes + a.scaledBytes + a.scaledBytes / 2 < 2 ^ 64
  rotate : a.rotInt ≠ 0 → a.scaledBytes = 0 ∨ a.scaledBytes + a.rotatedBytes < 2 ^ 64
  icc : a.needsIcc = true → a.rotatedBytes + a.rotatedBytes < 2 ^ 64

theorem decodeBytes_eq_zero (h : a.scaledBytes = 0) : a.decodeBytes = 0 := by
  have hp := a.bytesPerPixel_pos
  have hwd : a.width = 0 → a.decodeW = 0 := by
    unfold width
    split_ifs <;> omega
  have hhg : a.height = 0 → a.decodeH = 0 := by
    unfold height
    split_ifs <;> omega
  simp only [scaledBytes, mul_eq_zero, hp.ne', or_false] at h
  rcases h with hw | hh
  · simp [decodeBytes, hwd hw]
  · simp [decodeBytes, hhg hh]

theorem scaledBytes_le_rotatedBytes (a : Ask) : a.scaledBytes ≤ a.rotatedBytes :=
  Nat.mul_le_mul_right _ (area_le_rotSides _ _ _)

theorem rotatedBytes_of_rotInt (h : a.rotInt = 0) : a.rotatedBytes = a.scaledBytes := by
  simp [rotatedBytes, scaledBytes, exactSides, rotSides, h]

theorem iccInput_eq (a : Ask) : a.steps.iccInput (a.sizes a.exactSides) = min a.rotatedBytes sizeMax := by
  unfold Steps.iccInput
  split_ifs with hr
  · exact safeBuf_eq_min a.bytesPerPixel_pos _ _
  · have hn : a.rotInt = 0 := by simpa [steps] using hr
    rw [rotateInput_eq, rotatedBytes_of_rotInt hn]
    exact safeBuf_eq_min a.bytesPerPixel_pos _ _

theorem noWrap_iff (a : Ask) : NoWrap a.steps (a.sizes a.exactSides) ↔ SumsFit a := by
  have hd : (a.sizes a.exactSides).decode = min a.decodeBytes sizeMax := safeBuf_eq_min a.bytesPerPixel_pos _ _
  have hsc : (a.sizes a.exactSides).scaled = min a.scaledBytes sizeMax := safeBuf_eq_min a.bytesPerPixel_pos _ _
  have hr : (a.sizes a.exactSides).rotated = min a.rotatedBytes sizeMax :=
    safeBuf_eq_min a.bytesPerPixel_pos _ _
  have hf : a.needsIcc = true → (a.sizes a.exactSides).final = min a.rotatedBytes sizeMax := by
    intro hi
    rw [sizes, if_pos hi]
    exact safeBuf_eq_min a.bytesPerPixel_pos _ _
  have he : a.scaledBytes = 0 → a.decodeBytes = 0 := decodeBytes_eq_zero
  have hg := a.scaledBytes_le_rotatedBytes
  have hsl : min a.decodeBytes sizeMax + min a.scaledBytes sizeMax + min a.scaledBytes sizeMax / 2 < 2 ^ 64 ↔
      a.decodeBytes + a.scaledBytes + a.scaledBytes / 2 < 2 ^ 64 := by
    simp only [sizeMax]
    omega
  have hrt : min a.scaledBytes sizeMax + min a.rotatedBytes sizeMax < 2 ^ 64 ↔
      a.scaledBytes = 0 ∨ a.scaledBytes + a.rotatedBytes < 2 ^ 64 := by
    simp only [sizeMax]
    omega
  have hi : min a.rotatedBytes sizeMax + min a.rotatedBytes sizeMax < 2 ^ 64 ↔
      a.rotatedBytes + a.rotatedBytes < 2 ^ 64 := by
    simp only [sizeMax]
    omega
  constructor
  · intro h
    refine ⟨fun hs => ?_, fun hs => ?_, fun hs => ?_⟩
    · have hsm := h.scale (decide_eq_true hs)
      rwa [hd, hsc, hsl] at hsm
    · have hsm := h.rotate (decide_eq_true hs)
      rwa [rotateInput_eq, hsc, hr, hrt] at hsm
    · have hsm := h.icc hs
      rwa [iccInput_eq, hf hs, hi] at hsm
  · intro h
    refine ⟨fun hs => ?_, fun hs => ?_, fun hs => ?_⟩
    · rw [hd, hsc, hsl]
      exact h.scale (of_decide_eq_true hs)
    · rw [rotateInput_eq, hsc, hr, hrt]
      exact h.rotate (of_decide_eq_true hs)
    · rw [iccInput_eq, hf hs, hi]
      exact h.icc hs

/-- **When the estimate is what it should be**: exactly if the images that are in memory together have less than
`2 ^ 64` bytes. -/
theorem estimate_faithful_iff (junk : ℕ) (a : Ask) : Faithful junk a ↔ SumsFit a := by
  rw [← noWrap_iff]
  constructor
  · intro h
    have hlt : a.peak < 2 ^ 64 := h.exact ▸ estimate_lt junk a
    exact noWrap_of_lt hlt
  · intro h
    have he := estimate_eq_peak h junk
    have hsd := Ask.sides_eq (diagonal_lt h) junk
    obtain ⟨hd, hs, hr⟩ := sizes_le_peak a a.exactSides
    rw [← peak, ← he, ← hsd] at hd hs hr
    refine ⟨he, hd, hs, ?_, fun b hb => ?_⟩
    · by_cases hrt : a.steps.rotate = true
      · exact hr hrt
      · rw [rotated_eq_of_not hrt]
        exact hs
    · calc b.estimate junk ≤ b.peak := by
            rw [estimate, hb.sides_eq h]
            exact peakOf_sizeAdd_le _ _
        _ ≤ a.peak := hb.peak_mono
        _ = a.estimate junk := he.symm

theorem rotInt_of_finite {q : ℚ} {hq : double.Mem q ∧ |q| < 2 ^ double.limit} (hr : a.rotation = .finite q hq)
    (hp : 0 ≤ q) : a.rotInt = Throttling.rotInt q := by
  have hf : 0 ≤ ⌊q⌋ := Int.floor_nonneg.2 hp
  have hi : (-2 ^ 31 ≤ ⌊q⌋ ∧ ⌊q⌋ < 2 ^ 31) ↔ q < 2 ^ 31 := by
    have hlt : ⌊q⌋ < 2 ^ 31 ↔ q < ((2 ^ 31 : ℤ) : ℚ) := Int.floor_lt
    rw [hlt, and_iff_right (by omega)]
    norm_num
  simp only [rotInt, Throttling.rotInt, hr, castInt, if_pos hp, hi]

theorem estimate_of_dims (junk : ℕ) {decode out : Dims} (hdw : a.decodeW = decode.w)
    (hd : a.decodeH = decode.h) (how : a.outW = out.w) (ho : a.outH = out.h) {nc bps : ℕ} (hnc : a.nc = nc)
    (hbp : a.bps = bps) {q : ℚ} {hq : double.Mem q ∧ |q| < 2 ^ double.limit} (hr : a.rotation = .finite q hq)
    (hp : 0 ≤ q) (hdg : ceilSqrt (out.w * out.w + out.h * out.h) < 2 ^ 64) :
    a.estimate junk = estimatePeakMemory decode out nc bps q a.needsIcc := by
  have hw : a.width = out.w := by rw [width, how, if_neg out.w_pos.ne']
  have hh : a.height = out.h := by rw [height, ho, if_neg out.h_pos.ne']
  have hb : a.bytesPerPixel = (if 0 < nc then nc else 4) * bytesPerSample bps := by
    rw [bytesPerPixel_eq, hnc, hbp]
    simp
  have hs : a.sides junk = rotSides out.w out.h (Throttling.rotInt q) := by
    rw [Ask.sides_eq (fun _ => by rwa [hw, hh]), exactSides, hw, hh, rotInt_of_finite hr hp]
  simp only [estimate, estimatePeakMemory, Steps.peakOf, Steps.rotateInput, Steps.iccInput, steps, sizes, hs,
    hw, hh, hb, hdw, hd, rotInt_of_finite hr hp, decide_eq_true_eq]

end Ask

/-- No angle. -/
def upright : double.Value := .finite 0 ⟨double.mem_zero, by norm_num [double]⟩

/-- `2 ^ 31` by `2 ^ 31` grey pixels. -/
def hugeAsk (w : ℕ) (hw : w < 2 ^ 64) : Ask where
  decodeW := 2 ^ 31
  decodeH := 2 ^ 31
  outW := w
  outH := 2 ^ 31
  decodeW_lt := by norm_num
  decodeH_lt := by norm_num
  outW_lt := hw
  outH_lt := by norm_num
  nc := 1
  nc_lt := by norm_num
  bps := 8
  bps_lt := by norm_num
  rotation := upright
  needsIcc := false

theorem wide_lt : 2 ^ 32 < 2 ^ 64 := by norm_num

theorem narrow_lt : 3 * 2 ^ 30 < 2 ^ 64 := by norm_num

theorem larger_is_cheaper :
    ((hugeAsk (2 ^ 32) wide_lt).sizes ((hugeAsk (2 ^ 32) wide_lt).sides 0)).scaled = 2 ^ 63 ∧
    (hugeAsk (2 ^ 32) wide_lt).estimate 0 = 2 ^ 62 ∧
    (hugeAsk (3 * 2 ^ 30) narrow_lt).Smaller (hugeAsk (2 ^ 32) wide_lt) ∧
    2 ^ 62 < (hugeAsk (3 * 2 ^ 30) narrow_lt).estimate 0 := by
  have hs : (hugeAsk (3 * 2 ^ 30) narrow_lt).Smaller (hugeAsk (2 ^ 32) wide_lt) :=
    ⟨le_rfl, le_rfl, by decide +kernel, by decide +kernel, rfl, rfl, rfl, rfl, by decide +kernel⟩
  exact ⟨by decide +kernel, by decide +kernel, hs, by decide +kernel⟩

end Sipi.Throttling
