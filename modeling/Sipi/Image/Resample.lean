import Sipi.Image.Axis
import Sipi.Image.Raster
import Mathlib.Data.Finset.Max

/-!
# The resampler

`ResampleSeparable` in `src/resample.cc` makes the columns in a scratch buffer of `int32_t`, and then the rows: for
each of them it goes through the taps and adds a multiple of a whole row of the scratch buffer.

## Honest scope

The weights are exact before they are rounded.
-/

namespace Sipi.Image

open Sipi.Theory

/-! ### The passes -/

/-- What goes wrong. -/
inductive ScaleError where
  | overrun
  | overflow
  deriving DecidableEq

/-- The numbers of an `int32_t`. -/
def InInt32 (v : ℤ) : Prop := -2 ^ 31 ≤ v ∧ v < 2 ^ 31

instance (v : ℤ) : Decidable (InInt32 v) := inferInstanceAs (Decidable (_ ∧ _))

/-- A number stored in an `int32_t`. -/
def int32 (v : ℤ) : Except ScaleError ℤ := if InInt32 v then .ok v else .error .overflow

/-- `acc + w * v`. -/
def mac (acc w v : ℤ) : Except ScaleError ℤ := do
  let product ← int32 (w * v)
  int32 (acc + product)

/-- A half, in fixed point. -/
def resampleRound : ℤ := 2 ^ (kResamplePrecisionBits - 1)

/-- The sum over the taps of an output. -/
def accumulate (taps : List (ℕ × ℤ)) (read : ℕ → Except ScaleError ℤ) : Except ScaleError ℤ :=
  taps.foldlM (fun acc t => do
    let v ← read t.1
    mac acc t.2 v) resampleRound

/-- A sum, as a sample. -/
def clampShift (maxval : ℕ) (acc : ℤ) : ℤ := max 0 (min (acc / 2 ^ kResamplePrecisionBits) maxval)

section
variable (maxval nx ny nc nnx nny : ℕ) (h v : ℕ → List (ℕ × ℤ))

/-- The horizontal pass. -/
def horizontal (input : Buffer ℕ) : Except ScaleError (Buffer ℤ) :=
  fill .overrun 0 nnx ny nc fun i y k => do
    let acc ← accumulate (h i) fun s => (input.fetch .overrun (index nx nc s y k)).map Nat.cast
    return clampShift maxval acc

/-- One tap of the vertical pass. -/
def axpy (tmp : Buffer ℤ) (rowLen : ℕ) (acc : Buffer ℤ) (t : ℕ × ℤ) : Except ScaleError (Buffer ℤ) :=
  forRange (fun f acc => do
    let a ← acc.fetch .overrun f
    let s ← tmp.fetch .overrun (t.1 * rowLen + f)
    let a ← mac a t.2 s
    acc.put .overrun f a) rowLen 0 acc

/-- A row of the vertical pass, before it is stored. -/
def accumulateRow (tmp : Buffer ℤ) (rowLen : ℕ) (taps : List (ℕ × ℤ)) (acc : Buffer ℤ) :
    Except ScaleError (Buffer ℤ) :=
  taps.foldlM (axpy tmp rowLen) acc

/-- The vertical pass. -/
def vertical (tmp : Buffer ℤ) : Except ScaleError (Buffer ℕ) :=
  forRange (fun j out => do
    let acc ← accumulateRow tmp (nnx * nc) (v j) (.const (nnx * nc) resampleRound)
    forRange (fun f out => do
      let a ← acc.fetch .overrun f
      out.put .overrun (j * (nnx * nc) + f) (clampShift maxval a).toNat) (nnx * nc) 0 out)
    nny 0 (.const (nnx * nny * nc) 0)

/-- `ResampleSeparable`. -/
def resampleSeparable (input : Buffer ℕ) : Except ScaleError (Buffer ℕ) :=
  horizontal maxval nx ny nc nnx h input >>= vertical maxval nc nnx nny v

end

/-- The sides for which nothing is scaled. -/
def Degenerate (img : SipiImage) (nnx nny : ℕ) : Prop := nnx ≤ 1 ∨ nny ≤ 1 ∨ img.nx ≤ 1 ∨ img.ny ≤ 1

instance (img : SipiImage) (nnx nny : ℕ) : Decidable (Degenerate img nnx nny) :=
  inferInstanceAs (Decidable (_ ∨ _))

/-- What the ways to scale have in common. -/
def scaleWith (img : SipiImage) (nnx nny : ℕ) (pixels : Except ScaleError (Buffer ℕ)) :
    Except ScaleError (Bool × SipiImage) :=
  if Degenerate img nnx nny then .ok (false, img)
  else pixels.map fun out => (true, img.withPixels nnx nny out)

namespace SipiImage

/-- The columns that `scale` makes. -/
def columns (img : SipiImage) (nnx : ℕ) : Except ScaleError (Buffer ℤ) :=
  horizontal img.bps.fullScale img.nx img.ny img.nc nnx (buildAxisWeights img.nx nnx) img.pixels

/-- The samples that `scale` makes. -/
def resampled (img : SipiImage) (nnx nny : ℕ) : Except ScaleError (Buffer ℕ) :=
  resampleSeparable img.bps.fullScale img.nx img.ny img.nc nnx nny (buildAxisWeights img.nx nnx)
    (buildAxisWeights img.ny nny) img.pixels

/-- `SipiImage::scale`. -/
def scale (img : SipiImage) (nnx nny : ℕ) : Except ScaleError (Bool × SipiImage) :=
  scaleWith img nnx nny (img.resampled nnx nny)

end SipiImage

/-- No sum and no product is too large. -/
structure NoOverflow (start : ℤ) (taps : List (ℕ × ℤ)) (v : ℕ → ℤ) : Prop where
  sums : ∀ q, InInt32 (start + dot (taps.take q) v)
  products : ∀ t ∈ taps, InInt32 (t.2 * v t.1)

variable {tmp acc : Buffer ℤ}

section
variable {start : ℤ} {t : ℕ × ℤ} {taps : List (ℕ × ℤ)} {v : ℕ → ℤ}

theorem NoOverflow.first (h : NoOverflow start (t :: taps) v) : mac start t.2 (v t.1) = .ok (start + t.2 * v t.1) := by
  have hp := h.products t List.mem_cons_self
  have hs := h.sums 1
  rw [List.take_succ_cons, List.take_zero, dot_cons, dot_nil, add_zero] at hs
  rw [mac, int32, if_pos hp, ok_bind, int32, if_pos hs]

theorem NoOverflow.rest (h : NoOverflow start (t :: taps) v) : NoOverflow (start + t.2 * v t.1) taps v := by
  refine ⟨fun q => ?_, fun u hu => h.products u (List.mem_cons_of_mem t hu)⟩
  have hs := h.sums (q + 1)
  rwa [List.take_succ_cons, dot_cons, ← add_assoc] at hs

theorem accumulate_eq (h : NoOverflow resampleRound taps v) {read : ℕ → Except ScaleError ℤ}
    (hr : ∀ t ∈ taps, read t.1 = .ok (v t.1)) : accumulate taps read = .ok (resampleRound + dot taps v) := by
  have hf : ∀ start, NoOverflow start taps v → taps.foldlM (fun acc t => do
      let v ← read t.1
      mac acc t.2 v) start = .ok (start + dot taps v) := by
    clear h
    induction taps with
    | nil =>
      intro start _
      rw [List.foldlM_nil, dot_nil, add_zero]
      rfl
    | cons t taps ih =>
      intro start h
      rw [List.forall_mem_cons] at hr
      rw [List.foldlM_cons, hr.1, ok_bind, h.first, ok_bind, ih hr.2 _ h.rest, dot_cons, add_assoc]
  exact hf resampleRound h

theorem axpy_ends {rowLen : ℕ} (hs : acc.size = rowLen) (hrw : t.1 * rowLen + rowLen ≤ tmp.size)
    (hm : ∀ f < rowLen, mac (acc.get f) t.2 (tmp.get (t.1 * rowLen + f)) =
      .ok (acc.get f + t.2 * tmp.get (t.1 * rowLen + f))) :
    Ends (axpy tmp rowLen acc t) (fun out => out.size = rowLen ∧
      ∀ f < rowLen, out.get f = acc.get f + t.2 * tmp.get (t.1 * rowLen + f)) fun _ => False := by
  refine (forCount_ends (fun q (out : Buffer ℤ) => out.size = rowLen ∧
    (∀ f < q, out.get f = acc.get f + t.2 * tmp.get (t.1 * rowLen + f)) ∧ ∀ f, q ≤ f → out.get f = acc.get f)
    ⟨hs, fun f hf => absurd hf (Nat.not_lt_zero f), fun _ _ => rfl⟩ fun i out hi ho => ?_).imp
    fun out ho => ⟨ho.1, ho.2.1⟩
  obtain ⟨hs', hd, hr⟩ := ho
  rw [Buffer.fetch_of_lt _ (by omega), ok_bind, Buffer.fetch_of_lt _ (by omega), ok_bind, hr i le_rfl, hm i hi,
    ok_bind, Buffer.put_of_lt _ (by omega)]
  refine ⟨hs', fun f hf => ?_, fun f hf => ?_⟩
  · by_cases hl : f = i
    · rw [hl, Buffer.get_set_self]
    · rw [Buffer.get_set_of_ne _ hl]
      exact hd f (by omega)
  · rw [Buffer.get_set_of_ne _ (by omega)]
    exact hr f (by omega)

theorem accumulateRow_ends {rowLen : ℕ} (hs : acc.size = rowLen) (hr : ∀ t ∈ taps, t.1 * rowLen + rowLen ≤ tmp.size)
    (hno : ∀ f < rowLen, NoOverflow (acc.get f) taps fun s => tmp.get (s * rowLen + f)) :
    Ends (accumulateRow tmp rowLen taps acc) (fun out => out.size = rowLen ∧
      ∀ f < rowLen, out.get f = acc.get f + dot taps fun s => tmp.get (s * rowLen + f)) fun _ => False := by
  unfold accumulateRow
  induction taps generalizing acc with
  | nil =>
    rw [List.foldlM_nil]
    exact ⟨hs, fun f _ => by rw [dot_nil, add_zero]⟩
  | cons t taps ih =>
    rw [List.forall_mem_cons] at hr
    rw [List.foldlM_cons]
    refine (axpy_ends hs hr.1 fun f hf => (hno f hf).first).bind fun mid hm => ?_
    refine (ih hm.1 hr.2 fun f hf => ?_).imp fun out ho => ⟨ho.1, fun f hf => ?_⟩
    · rw [hm.2 f hf]
      exact (hno f hf).rest
    · rw [ho.2 f hf, hm.2 f hf, dot_cons, add_assoc]

end

variable {v : ℕ → ℤ}

section
variable {src dst i : ℕ}

theorem weightSum_axis (src : ℕ) (hi : i < dst) : weightSum (buildAxisWeights src dst i) = kResampleOne :=
  weightSum_quantise kResampleOne (shares_realTaps src hi).ne_nil

theorem mem_axis_iff {s : ℕ} : (∃ t ∈ buildAxisWeights src dst i, t.1 = s) ↔ ∃ t ∈ realTaps src dst i, t.1 = s := by
  rw [← List.mem_map, ← List.mem_map, buildAxisWeights, quantise_map_fst]

theorem axis_nodup (hs : 0 < src) (hi : i < dst) : ((buildAxisWeights src dst i).map Prod.fst).Nodup := by
  rw [buildAxisWeights, quantise_map_fst]
  exact (realTaps_samples hs hi).1

theorem axis_lt (hs : 0 < src) (hi : i < dst) : ∀ t ∈ buildAxisWeights src dst i, t.1 < src := by
  intro t ht
  obtain ⟨u, hu, heq⟩ := mem_axis_iff.mp ⟨t, ht, rfl⟩
  rw [← heq]
  exact (realTaps_samples hs hi).2 u hu

theorem noOverflow_axis (hi : i < dst) (hv : ∀ t ∈ buildAxisWeights src dst i, 0 ≤ v t.1 ∧ v t.1 ≤ 65535) :
    NoOverflow resampleRound (buildAxisWeights src dst i) v := by
  have hs := shares_realTaps src hi
  have hv' : ∀ t ∈ realTaps src dst i, 0 ≤ v t.1 ∧ v t.1 ≤ 65535 := by
    intro t ht
    obtain ⟨u, hu, heq⟩ := mem_axis_iff.mpr ⟨t, ht, rfl⟩
    rw [← heq]
    exact hv u hu
  have ho : (kResampleOne : ℤ) = 16384 := rfl
  have hhl : resampleRound = 8192 := rfl
  refine ⟨fun q => ?_, fun t ht => ?_⟩
  · have hb := hs.dot_bounds kResampleOne hv' q
    rw [ho] at hb
    rw [hhl, InInt32, buildAxisWeights]
    omega
  · obtain ⟨hl, hh⟩ := hs.weight_bounds kResampleOne ht
    obtain ⟨hv0, hv1⟩ := hv t ht
    rw [ho] at hl hh
    have h1 := mul_le_mul_of_nonneg_right hl hv0
    have h2 := mul_le_mul_of_nonneg_right hh hv0
    rw [InInt32]
    omega

end

theorem clampShift_bounds (maxval : ℕ) (acc : ℤ) : 0 ≤ clampShift maxval acc ∧ clampShift maxval acc ≤ maxval := by
  unfold clampShift
  omega

variable {maxval : ℕ}

theorem clampShift_between {acc lo hi : ℤ} (hlo : 0 ≤ lo) (hhi : hi ≤ maxval)
    (ha : lo ≤ acc / kResampleOne ∧ acc / kResampleOne ≤ hi) :
    lo ≤ clampShift maxval acc ∧ clampShift maxval acc ≤ hi := by
  have hs : acc / 2 ^ kResamplePrecisionBits = acc / kResampleOne := rfl
  rw [clampShift, hs]
  omega

theorem index_eq_row (w nc x y c : ℕ) : index w nc x y c = y * (w * nc) + (x * nc + c) := by
  unfold index
  ring

theorem row_lt {w nc x c : ℕ} (hx : x < w) (hc : c < nc) : x * nc + c < w * nc := by
  have hp := index_lt hx Nat.one_pos hc
  rw [index_eq_row] at hp
  simpa using hp

variable {out : Buffer ℕ}

section
variable {maxval nx ny nc nnx nny : ℕ}

theorem horizontal_ends {input : Buffer ℕ} (hsz : input.size = nx * ny * nc)
    (hs : ∀ p < input.size, input.get p ≤ maxval) (hm : maxval ≤ 65535) (hnx : 0 < nx) :
    Ends (horizontal maxval nx ny nc nnx (buildAxisWeights nx nnx) input)
      (Filled nnx ny nc (fun i y k a => a = clampShift maxval (resampleRound +
        dot (buildAxisWeights nx nnx i) fun s => (input.get (index nx nc s y k) : ℤ))) (nnx * ny * nc))
      fun _ => False := by
  refine fill_ends fun i hi y hy k hk => ?_
  have hp : ∀ t ∈ buildAxisWeights nx nnx i, index nx nc t.1 y k < input.size := by
    intro t ht
    rw [hsz]
    exact index_lt (axis_lt hnx hi t ht) hy hk
  have hno : NoOverflow resampleRound (buildAxisWeights nx nnx i) fun s => (input.get (index nx nc s y k) : ℤ) := by
    refine noOverflow_axis hi fun t ht => ⟨Int.natCast_nonneg _, ?_⟩
    exact_mod_cast (hs _ (hp t ht)).trans hm
  rw [accumulate_eq hno fun t ht => by rw [Buffer.fetch_of_lt _ (hp t ht)]; rfl, ok_bind]
  rfl

theorem storeRow_ends {len n j : ℕ} {row : ℕ → ℕ → ℕ} (ha : acc.size = len)
    (hs : out.size = n) (hj : j * len + len ≤ n) (hrw : ∀ f < len, (clampShift maxval (acc.get f)).toNat = row j f)
    (hr : out.Rows len row j) :
    Ends (forRange (fun f out => do
        let a ← acc.fetch ScaleError.overrun f
        out.put .overrun (j * len + f) (clampShift maxval a).toNat) len 0 out)
      (fun out => out.size = n ∧ out.Rows len row (j + 1)) fun _ => False := by
  refine (forCount_ends (fun q (out : Buffer ℕ) => out.size = n ∧ out.Rows len row j ∧
    ∀ f < q, out.get (j * len + f) = row j f) ⟨hs, hr, fun f hf => absurd hf (Nat.not_lt_zero f)⟩
    fun f out hf ho => ?_).imp fun out ho => ⟨ho.1, fun q hq f hf => ?_⟩
  · obtain ⟨hs', hr', hd⟩ := ho
    rw [Buffer.fetch_of_lt _ (by omega), ok_bind, Buffer.put_of_lt _ (by rw [hs']; omega), hrw f hf]
    refine ⟨hs', fun q hq g hg => ?_, fun g hg => ?_⟩
    · have hb : len * q + len ≤ j * len := by
        rw [← Nat.mul_succ, Nat.mul_comm j]
        exact Nat.mul_le_mul_left len hq
      rw [Buffer.get_set_of_ne _ (by omega)]
      exact hr' q hq g hg
    · by_cases hl : g = f
      · rw [hl, Buffer.get_set_self]
      · rw [Buffer.get_set_of_ne _ (by omega)]
        exact hd g (by omega)
  · rcases Nat.lt_succ_iff_lt_or_eq.mp hq with hlt | rfl
    · exact ho.2.1 q hlt f hf
    · rw [Nat.mul_comm]
      exact ho.2.2 f hf

theorem vertical_ends (hsz : tmp.size = nnx * ny * nc)
    (hsc : ∀ p < tmp.size, 0 ≤ tmp.get p ∧ tmp.get p ≤ maxval) (hm : maxval ≤ 65535) (hny : 0 < ny) :
    Ends (vertical maxval nc nnx nny (buildAxisWeights ny nny) tmp)
      (fun out => out.size = nnx * nny * nc ∧ out.Rows (nnx * nc) (fun j f =>
        (clampShift maxval (resampleRound +
          dot (buildAxisWeights ny nny j) fun s => tmp.get (s * (nnx * nc) + f))).toNat) nny) fun _ => False := by
  refine forCount_ends (fun r (out : Buffer ℕ) => out.size = nnx * nny * nc ∧ out.Rows (nnx * nc) _ r)
    ⟨rfl, Buffer.rows_zero _ _ _⟩ fun j out hj ho => ?_
  have hr : ∀ s h, s < h → s * (nnx * nc) + nnx * nc ≤ nnx * h * nc := by
    intro s h hs
    calc s * (nnx * nc) + nnx * nc = (s + 1) * (nnx * nc) := (Nat.succ_mul s _).symm
      _ ≤ h * (nnx * nc) := Nat.mul_le_mul_right _ hs
      _ = nnx * h * nc := by ring
  have hrw : ∀ t ∈ buildAxisWeights ny nny j, t.1 * (nnx * nc) + nnx * nc ≤ tmp.size := fun t ht => by
    rw [hsz]
    exact hr t.1 ny (axis_lt hny hj t ht)
  have hsm : ∀ f < nnx * nc, NoOverflow resampleRound (buildAxisWeights ny nny j)
      fun s => tmp.get (s * (nnx * nc) + f) := by
    refine fun f hf => noOverflow_axis hj fun t ht => ?_
    have hle := hsc (t.1 * (nnx * nc) + f) ((Nat.add_lt_add_left hf _).trans_le (hrw t ht))
    exact ⟨hle.1, hle.2.trans (by exact_mod_cast hm)⟩
  have ha : Ends (accumulateRow tmp (nnx * nc) (buildAxisWeights ny nny j) (.const (nnx * nc) resampleRound))
      (fun acc => acc.size = nnx * nc ∧ ∀ f < nnx * nc, acc.get f = resampleRound +
        dot (buildAxisWeights ny nny j) fun s => tmp.get (s * (nnx * nc) + f)) fun _ => False :=
    accumulateRow_ends rfl hrw hsm
  refine ha.bind fun acc ha => ?_
  exact storeRow_ends ha.1 ho.1 (hr j nny hj) (fun f hf => by rw [ha.2 f hf]) ho.2

end

theorem Depth.fullScale_le (bps : Depth) : bps.fullScale ≤ 65535 := by cases bps <;> decide

namespace SipiImage

variable {img : SipiImage} {nnx nny : ℕ}

/-- A sample of the image. -/
def sampleAt (img : SipiImage) (x y k : ℕ) : ℕ := img.pixels.get (index img.nx img.nc x y k)

/-- What the two passes have computed. -/
structure Resampled (img : SipiImage) (nnx nny : ℕ) (tmp : Buffer ℤ) (out : Buffer ℕ) : Prop where
  columns : img.columns nnx = .ok tmp
  resampled : img.resampled nnx nny = .ok out
  size : out.size = nnx * nny * img.nc
  column : ∀ i < nnx, ∀ y < img.ny, ∀ k < img.nc, tmp.get (index nnx img.nc i y k) =
    clampShift img.bps.fullScale (resampleRound +
      dot (buildAxisWeights img.nx nnx i) fun s => (img.sampleAt s y k : ℤ))
  row : ∀ i < nnx, ∀ j < nny, ∀ k < img.nc, (out.get (index nnx img.nc i j k) : ℤ) =
    clampShift img.bps.fullScale (resampleRound +
      dot (buildAxisWeights img.ny nny j) fun s => tmp.get (index nnx img.nc i s k))

theorem exists_resampled (hfl : img.Full) (hs : img.InScale) (hnx : 0 < img.nx) (hny : 0 < img.ny)
    (nnx nny : ℕ) : ∃ tmp out, Resampled img nnx nny tmp out := by
  have hm := img.bps.fullScale_le
  have hcl : Ends (img.columns nnx) _ _ := horizontal_ends hfl hs hm hnx
  obtain ⟨tmp, ht, hf⟩ := hcl.exists_ok
  have hb : ∀ p < tmp.size, 0 ≤ tmp.get p ∧ tmp.get p ≤ img.bps.fullScale := by
    intro p hp
    rw [hf.size] at hp
    obtain ⟨x, hx, y, hy, c, hc, rfl⟩ := exists_index hp
    rw [hf.get hx hy hc]
    exact clampShift_bounds _ _
  have hv : Ends (vertical img.bps.fullScale img.nc nnx nny (buildAxisWeights img.ny nny) tmp) _ _ :=
    vertical_ends hf.size hb hm hny
  obtain ⟨out, ho, hsz, hr⟩ := hv.exists_ok
  refine ⟨tmp, out, ht, ?_, hsz, fun i hi y hy k hk => hf.get hi hy hk, fun i hi j hj k hk => ?_⟩
  · have hbn : img.resampled nnx nny = img.columns nnx >>=
        vertical img.bps.fullScale img.nc nnx nny (buildAxisWeights img.ny nny) := rfl
    rw [hbn, ht, ok_bind, ho]
  · have hrw := hr j hj (i * img.nc + k) (row_lt hi hk)
    rw [Nat.mul_comm, ← index_eq_row] at hrw
    rw [hrw, Int.toNat_of_nonneg (clampShift_bounds _ _).1]
    simp only [index_eq_row]

theorem Full.sample_lt (hf : img.Full) {x y k : ℕ} (hx : x < img.nx) (hy : y < img.ny) (hk : k < img.nc) :
    index img.nx img.nc x y k < img.pixels.size := by
  rw [hf]
  exact index_lt hx hy hk

variable {src dst : ℕ}

theorem clampShift_flat {i : ℕ} (hi : i < dst) {c : ℕ} (hc : c ≤ maxval)
    (hv : ∀ t ∈ buildAxisWeights src dst i, v t.1 = c) :
    clampShift maxval (resampleRound + dot (buildAxisWeights src dst i) v) = c := by
  have hd := dot_const _ hv
  rw [weightSum_axis src hi] at hd
  have ho : (kResampleOne : ℤ) = 16384 := rfl
  have hh : resampleRound = 8192 := rfl
  have hs : (resampleRound + dot (buildAxisWeights src dst i) v) / kResampleOne = c := by
    rw [hd, ho, hh]
    omega
  have hb := clampShift_between (Int.natCast_nonneg c) (Nat.cast_le.mpr hc) ⟨hs.ge, hs.le⟩
  omega

theorem Resampled.flat (h : Resampled img nnx nny tmp out) (hfl : img.Full)
    (hsc : img.InScale) (hnx : 0 < img.nx) (hny : 0 < img.ny) {c : ℕ}
    (hf : ∀ p < img.pixels.size, img.pixels.get p = c) : ∀ p < out.size, out.get p = c := by
  intro p hp
  rw [h.size] at hp
  obtain ⟨i, hi, j, hj, k, hk, rfl⟩ := exists_index hp
  have hc : c ≤ img.bps.fullScale := by
    have hlt := hfl.sample_lt hnx hny hk
    rw [← hf _ hlt]
    exact hsc _ hlt
  have hcl : ∀ s < img.ny, tmp.get (index nnx img.nc i s k) = c := by
    intro s hs
    rw [h.column i hi s hs k hk]
    refine clampShift_flat hi hc fun t ht => ?_
    rw [sampleAt, hf _ (hfl.sample_lt (axis_lt hnx hi t ht) hs hk)]
  have hr := h.row i hi j hj k hk
  rw [clampShift_flat hj hc fun t ht => hcl t.1 (axis_lt hny hj t ht)] at hr
  exact_mod_cast hr

theorem Resampled.scale (h : Resampled img nnx nny tmp out)
    (hs : ¬ Degenerate img nnx nny) : img.scale nnx nny = .ok (true, img.withPixels nnx nny out) := by
  rw [SipiImage.scale, scaleWith, if_neg hs, h.resampled]
  rfl

/-- **The resampler is exact**: the weights of every output add up to one; every sum along the way fits; both
passes end, so that none of their own sums and products is too large; and a flat image stays flat. -/
theorem scale_exact :
    (∀ src dst, ∀ i < dst, weightSum (buildAxisWeights src dst i) = 2 ^ 14) ∧
      (∀ src dst, ∀ i < dst, ∀ v : ℕ → ℤ, (∀ t ∈ buildAxisWeights src dst i, 0 ≤ v t.1 ∧ v t.1 ≤ 65535) →
        ∀ q, InInt32 (2 ^ 13 + dot ((buildAxisWeights src dst i).take q) v)) ∧
      (∀ img : SipiImage, img.Full → img.InScale → 0 < img.nx → 0 < img.ny → ∀ nnx nny,
        ∃ out, img.resampled nnx nny = .ok out ∧
          ∀ c, (∀ p < img.pixels.size, img.pixels.get p = c) → ∀ p < out.size, out.get p = c) ∧
      ∀ img : SipiImage, img.Full → img.InScale → ∀ nnx nny,
        ∃ done out, img.scale nnx nny = .ok (done, out) ∧
          ∀ c, (∀ p < img.pixels.size, img.pixels.get p = c) → ∀ p < out.pixels.size, out.pixels.get p = c := by
  refine ⟨fun src dst i hi => weightSum_axis src hi, fun src dst i hi v hv => (noOverflow_axis hi hv).sums,
    fun img hfl hs hnx hny nnx nny => ?_, fun img hfl hs nnx nny => ?_⟩
  · obtain ⟨tmp, out, h⟩ := exists_resampled hfl hs hnx hny nnx nny
    exact ⟨out, h.resampled, fun c hf => h.flat hfl hs hnx hny hf⟩
  · by_cases hsd : Degenerate img nnx nny
    · exact ⟨false, img, if_pos hsd, fun _ hf => hf⟩
    · have hs' := hsd
      simp only [Degenerate, not_or, not_le] at hs'
      obtain ⟨-, -, hnx, hny⟩ := hs'
      obtain ⟨tmp, out, h⟩ := exists_resampled hfl hs (by omega) (by omega) nnx nny
      exact ⟨true, _, h.scale hsd, fun c hf => h.flat hfl hs (by omega) (by omega) hf⟩

/-- An image of one gray channel of sixteen bits. -/
def ofSamples (nx ny : ℕ) (f : ℕ → ℕ → ℕ) : SipiImage :=
  ⟨nx, ny, 1, .sixteen, .minisblack, [], .topLeft, none, ⟨nx * ny * 1, fun p => f (p % nx) (p / nx)⟩⟩

theorem scale_exact_white :
    weightSum (buildAxisWeights 7 3 1) = 2 ^ 14 ∧
      InInt32 (2 ^ 13 + dot ((buildAxisWeights 7 3 1).take 2) fun _ => 65535) ∧
      (∃ out, (ofSamples 7 5 fun _ _ => 65535).resampled 3 1 = .ok out ∧ ∀ p < out.size, out.get p = 65535) ∧
      ∃ done out, (ofSamples 7 5 fun _ _ => 65535).scale 3 2 = .ok (done, out) ∧
        ∀ p < out.pixels.size, out.pixels.get p = 65535 := by
  obtain ⟨ht, hsm, hp, hs⟩ := scale_exact
  have hfl : (ofSamples 7 5 fun _ _ => 65535).Full := rfl
  have hin : (ofSamples 7 5 fun _ _ => 65535).InScale := fun _ _ => le_rfl
  refine ⟨ht 7 3 1 (by decide), hsm 7 3 1 (by decide) _ (fun _ _ => by decide) 2, ?_, ?_⟩
  · obtain ⟨out, ho, hf⟩ := hp _ hfl hin (by decide) (by decide) 3 1
    exact ⟨out, ho, hf 65535 fun _ _ => rfl⟩
  · obtain ⟨done, out, ho, hf⟩ := hs _ hfl hin 3 2
    exact ⟨done, out, ho, hf 65535 fun _ _ => rfl⟩

/-! ### Averages -/

/-- Between the smallest and the largest. -/
def Between (taps : List (ℕ × ℤ)) (v : ℕ → ℤ) (a : ℤ) : Prop := (∃ t ∈ taps, v t.1 ≤ a) ∧ ∃ t ∈ taps, a ≤ v t.1

/-- **Both passes average** what they read. -/
def Averaged (img : SipiImage) (nnx nny : ℕ) : Prop :=
  ∃ tmp out, img.columns nnx = .ok tmp ∧ img.scale nnx nny = .ok (true, img.withPixels nnx nny out) ∧
    (∀ i < nnx, ∀ y < img.ny, ∀ k < img.nc, Between (buildAxisWeights img.nx nnx i)
      (fun s => img.sampleAt s y k) (tmp.get (index nnx img.nc i y k))) ∧
    (∀ i < nnx, ∀ j < nny, ∀ k < img.nc, Between (buildAxisWeights img.ny nny j)
      (fun s => tmp.get (index nnx img.nc i s k)) (out.get (index nnx img.nc i j k))) ∧
    ∀ i < nnx, ∀ j < nny, ∀ k < img.nc,
      (∃ s ∈ buildAxisWeights img.nx nnx i, ∃ t ∈ buildAxisWeights img.ny nny j,
        img.sampleAt s.1 t.1 k ≤ out.get (index nnx img.nc i j k)) ∧
      ∃ s ∈ buildAxisWeights img.nx nnx i, ∃ t ∈ buildAxisWeights img.ny nny j,
        out.get (index nnx img.nc i j k) ≤ img.sampleAt s.1 t.1 k

/-- **The resampler is an average.** -/
def Averages (nx ny nnx nny : ℕ) : Prop :=
  ∀ img : SipiImage, img.nx = nx → img.ny = ny → img.Full → img.InScale → img.Averaged nnx nny

theorem between_of_nonneg {i : ℕ} (hi : i < dst) (hw : ∀ t ∈ buildAxisWeights src dst i, 0 ≤ t.2)
    (hv : ∀ t ∈ buildAxisWeights src dst i, 0 ≤ v t.1 ∧ v t.1 ≤ maxval) :
    Between (buildAxisWeights src dst i) v
      (clampShift maxval (resampleRound + dot (buildAxisWeights src dst i) v)) := by
  set taps := buildAxisWeights src dst i with htp
  have hne : taps.toFinset.Nonempty := by
    rw [List.toFinset_nonempty_iff]
    rintro hn
    have ht := weightSum_axis src hi
    rw [← htp, hn] at ht
    exact absurd ht (by decide)
  obtain ⟨lo, hlo, hmn⟩ := taps.toFinset.exists_min_image (fun t => v t.1) hne
  obtain ⟨hi', hhi, hm⟩ := taps.toFinset.exists_max_image (fun t => v t.1) hne
  rw [List.mem_toFinset] at hlo hhi
  simp only [List.mem_toFinset] at hmn hm
  have hb := clampShift_between (hv lo hlo).1 (hv hi' hhi).2
    (between hw (weightSum_axis src hi) (by decide : 0 ≤ resampleRound) (by decide) hmn hm)
  exact ⟨⟨lo, hlo, hb.1⟩, ⟨hi', hhi, hb.2⟩⟩

theorem not_between_of_neg {i : ℕ} (hsr : 0 < src) (hi : i < dst) {t : ℕ × ℤ}
    (ht : t ∈ buildAxisWeights src dst i) (hn : t.2 < 0)
    (hv : ∀ u ∈ buildAxisWeights src dst i, v u.1 = if u.1 = t.1 then 0 else 65534) :
    ¬ Between (buildAxisWeights src dst i) v
      (clampShift 65535 (resampleRound + dot (buildAxisWeights src dst i) v)) := by
  rintro ⟨-, u, hu, hle⟩
  have hd := dot_skip (axis_nodup hsr hi) ht 65534
  rw [weightSum_axis src hi, ← dot_congr hv] at hd
  have ho : (kResampleOne : ℤ) = 16384 := rfl
  have hh : resampleRound = 8192 := rfl
  have hs : (2 : ℤ) ^ kResamplePrecisionBits = 16384 := rfl
  rw [clampShift, hd, ho, hh, hs, hv u hu] at hle
  split_ifs at hle <;> omega

theorem sampleAt_ofSamples {nx x : ℕ} (ny y : ℕ) (f : ℕ → ℕ → ℕ) (hx : x < nx) :
    (ofSamples nx ny f).sampleAt x y 0 = f x y := by
  have hp : index nx 1 x y 0 = y * nx + x := by
    simp [index]
  obtain ⟨hd, hm⟩ := (eq_iff_div_mod hx).1 hp
  show f (index nx 1 x y 0 % nx) (index nx 1 x y 0 / nx) = f x y
  rw [hd, hm]

theorem inScale_ofSamples {nx ny : ℕ} {f : ℕ → ℕ → ℕ} (hf : ∀ x y, f x y ≤ 65535) : (ofSamples nx ny f).InScale :=
  fun p _ => hf (p % nx) (p / nx)

theorem exists_negative (h : ¬ GainsLittle src dst) : ∃ i < dst, ∃ t ∈ buildAxisWeights src dst i, t.2 < 0 := by
  rw [← weights_nonneg_iff] at h
  push Not at h
  exact h

section
variable {nx ny : ℕ}

theorem Averaged.exists_passes {img : SipiImage} (h : img.Averaged nnx nny) (hf : img.Full) (hsc : img.InScale)
    (hnx : 0 < img.nx) (hny : 0 < img.ny) :
    ∃ tmp out, Resampled img nnx nny tmp out ∧
      (∀ i < nnx, ∀ y < img.ny, ∀ k < img.nc, Between (buildAxisWeights img.nx nnx i)
        (fun s => img.sampleAt s y k) (tmp.get (index nnx img.nc i y k))) ∧
      ∀ i < nnx, ∀ j < nny, ∀ k < img.nc, Between (buildAxisWeights img.ny nny j)
        (fun s => tmp.get (index nnx img.nc i s k)) (out.get (index nnx img.nc i j k)) := by
  obtain ⟨tmp, out, ht, ho, hc, hr, -⟩ := h
  obtain ⟨tmp', out', hrs⟩ := exists_resampled hf hsc hnx hny nnx nny
  cases ht.symm.trans hrs.columns
  have hs : ¬ Degenerate img nnx nny := by
    intro hs
    rw [scale, scaleWith, if_pos hs] at ho
    cases ho
  obtain rfl : out = out' :=
    congrArg (fun r : Bool × SipiImage => r.2.pixels) (Except.ok.inj (ho.symm.trans (hrs.scale hs)))
  exact ⟨tmp, out, hrs, hc, hr⟩

theorem Averages.columns (h : Averages nx ny nnx nny) (hnx : 0 < nx) (hny : 0 < ny) : GainsLittle nx nnx := by
  by_contra hg
  obtain ⟨i, hi, t, ht, hn⟩ := exists_negative hg
  set img := ofSamples nx ny fun x _ => if x = t.1 then 0 else 65534 with him
  have hf : img.Full := rfl
  have hs : img.InScale := inScale_ofSamples fun x _ => by split_ifs <;> decide
  obtain ⟨tmp, out, hr, hc, -⟩ := (h img rfl rfl hf hs).exists_passes hf hs hnx hny
  have hb := hc i hi 0 hny 0 Nat.one_pos
  rw [hr.column i hi 0 hny 0 Nat.one_pos] at hb
  refine not_between_of_neg hnx hi ht hn (fun u hu => ?_) hb
  rw [him, sampleAt_ofSamples ny 0 _ (axis_lt hnx hi u hu)]
  split_ifs <;> rfl

theorem Averages.rows (h : Averages nx ny nnx nny) (hnx : 0 < nx) (hny : 0 < ny) (hn : 0 < nnx) :
    GainsLittle ny nny := by
  by_contra hg
  obtain ⟨j, hj, t, ht, hng⟩ := exists_negative hg
  set img := ofSamples nx ny fun _ y => if y = t.1 then 0 else 65534 with hi
  have hf : img.Full := rfl
  have hs : img.InScale := inScale_ofSamples fun _ y => by split_ifs <;> decide
  obtain ⟨tmp, out, hrs, -, hr⟩ := (h img rfl rfl hf hs).exists_passes hf hs hnx hny
  have hb := hr 0 hn j hj 0 Nat.one_pos
  rw [hrs.row 0 hn j hj 0 Nat.one_pos] at hb
  refine not_between_of_neg hny hj ht hng (fun u hu => ?_) hb
  -- the rows are flat, so the first pass leaves them as they are
  have hfl : tmp.get (index nnx img.nc 0 u.1 0) = ((if u.1 = t.1 then 0 else 65534 : ℕ) : ℤ) := by
    have hle : (if u.1 = t.1 then 0 else 65534) ≤ 65535 := by split_ifs <;> decide
    rw [hrs.column 0 hn u.1 (axis_lt hny hj u hu) 0 Nat.one_pos]
    refine clampShift_flat hn hle fun w hw => ?_
    rw [hi, sampleAt_ofSamples ny u.1 _ (axis_lt hnx hn w hw)]
  rw [hfl]
  split_ifs <;> rfl

theorem averages_of_gainsLittle (hnx : 2 ≤ nx) (hny : 2 ≤ ny) (hn : 2 ≤ nnx) (hnn : 2 ≤ nny)
    (hx : GainsLittle nx nnx) (hy : GainsLittle ny nny) : Averages nx ny nnx nny := by
  rintro img rfl rfl hf hsc
  rw [← weights_nonneg_iff] at hx hy
  obtain ⟨tmp, out, hrs⟩ := exists_resampled hf hsc (by omega) (by omega) nnx nny
  have hc : ∀ i < nnx, ∀ y < img.ny, ∀ k < img.nc, Between (buildAxisWeights img.nx nnx i)
      (fun s => img.sampleAt s y k) (tmp.get (index nnx img.nc i y k)) := by
    intro i hi y hy' k hk
    rw [hrs.column i hi y hy' k hk]
    refine between_of_nonneg hi (hx i hi) fun t ht => ⟨Int.natCast_nonneg _, ?_⟩
    exact_mod_cast hsc _ (hf.sample_lt (axis_lt (by omega) hi t ht) hy' hk)
  have hrw : ∀ i < nnx, ∀ j < nny, ∀ k < img.nc, Between (buildAxisWeights img.ny nny j)
      (fun s => tmp.get (index nnx img.nc i s k)) (out.get (index nnx img.nc i j k)) := by
    intro i hi j hj k hk
    rw [hrs.row i hi j hj k hk]
    refine between_of_nonneg hj (hy j hj) fun t ht => ?_
    rw [hrs.column i hi t.1 (axis_lt (by omega) hj t ht) k hk]
    exact clampShift_bounds _ _
  refine ⟨tmp, out, hrs.columns, hrs.scale ?_, hc, hrw, fun i hi j hj k hk => ?_⟩
  · rw [Degenerate]
    omega
  · obtain ⟨⟨t, ht, hl⟩, u, hu, hh⟩ := hrw i hi j hj k hk
    obtain ⟨s, hs, hl'⟩ := (hc i hi t.1 (axis_lt (by omega) hj t ht) k hk).1
    obtain ⟨r, hr, hh'⟩ := (hc i hi u.1 (axis_lt (by omega) hj u hu) k hk).2
    exact ⟨⟨s, hs, t, ht, Int.ofNat_le.mp (hl'.trans hl)⟩, r, hr, u, hu, Int.ofNat_le.mp (hh.trans hh')⟩

/-- **When the resampler is an average**: exactly if the rounding of the weights gains little on both axes, which
is when no weight is negative. -/
theorem averages_iff (nx ny nnx nny : ℕ) (hnx : 2 ≤ nx) (hny : 2 ≤ ny) (hnnx : 2 ≤ nnx) (hnny : 2 ≤ nny) :
    (Averages nx ny nnx nny ↔ GainsLittle nx nnx ∧ GainsLittle ny nny) ∧
      ((∀ i < nnx, ∀ t ∈ buildAxisWeights nx nnx i, 0 ≤ t.2) ∧ (∀ j < nny, ∀ t ∈ buildAxisWeights ny nny j, 0 ≤ t.2) ↔
        GainsLittle nx nnx ∧ GainsLittle ny nny) := by
  refine ⟨⟨fun h => ⟨h.columns (by omega) (by omega), h.rows (by omega) (by omega) (by omega)⟩, fun h => ?_⟩, ?_⟩
  · exact averages_of_gainsLittle hnx hny hnnx hnny h.1 h.2
  · rw [weights_nonneg_iff, weights_nonneg_iff]

end

theorem averages_thumbnail : GainsLittle 16 5 ∧ GainsLittle 9 20 ∧ Averages 16 9 5 20 :=
  ⟨by decide, by decide, (averages_iff 16 9 5 20 (by decide) (by decide) (by decide) (by decide)).1.mpr
    ⟨by decide, by decide⟩⟩

theorem negative_weight : (∃ i < 2, ∃ t ∈ buildAxisWeights 397 2 i, t.2 < 0) ∧ ¬ Averages 397 2 2 2 := by
  have hg : ¬ GainsLittle 397 2 := by decide
  exact ⟨exists_negative hg, fun h => hg (h.columns (by decide) (by decide))⟩

end SipiImage

end Sipi.Image
