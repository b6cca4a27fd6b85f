import Sipi.Iiif.Grammar
import Sipi.Theory.Fallible
import Sipi.Theory.Halving

/-!
# The pyramid that an image advertises

`image_info_json` of `src/server-rs/src/info.rs` tells a client in which sizes an image can be had cheaply.

## Honest scope

The block for an authentication service is added elsewhere and left out.
-/

namespace Sipi.Serve

open Sipi.Iiif Sipi.Theory

/-- What machine integers can panic with. -/
inductive Panic where
  | shift
  | divisionByZero
  deriving DecidableEq

/-- `a << n` in a type of so many bits. -/
def shl (bits a n : ℕ) : Except Panic ℕ := if n < bits then .ok (a * 2 ^ n % 2 ^ bits) else .error .shift

/-- `div_ceil`. -/
def divCeil (a b : ℕ) : Except Panic ℕ :=
  if b = 0 then .error .divisionByZero else .ok (if 0 < a % b then a / b + 1 else a / b)

/-! ### The object -/

/-- `SipiImageDims`. -/
structure SipiImageDims where
  width : UInt32
  height : UInt32
  numpages : UInt32
  tileWidth : UInt32
  tileHeight : UInt32

/-- One of the `sizes`. -/
structure ImageSize where
  width : ℕ
  height : ℕ
  deriving DecidableEq

/-- One of the `tiles`. -/
structure TileInfo where
  width : ℕ
  height : ℕ
  scaleFactors : List ℕ
  deriving DecidableEq

/-- What `image_info_json` gives. -/
structure ImageInfo where
  context : Str
  id : Str
  type : Str
  protocol : Str
  profile : Str
  width : ℕ
  height : ℕ
  numpages : Option ℕ
  sizes : List ImageSize
  tiles : Option (List TileInfo)
  extraFormats : List Str
  preferredFormats : List Str
  extraFeatures : List Str

/-- `EXTRA_FEATURES`. -/
def extraFeatures : List Str :=
  ["baseUriRedirect", "canonicalLinkHeader", "cors", "jsonldMediaType", "mirroring", "profileLinkHeader",
    "regionByPct", "regionByPx", "regionSquare", "rotationArbitrary", "rotationBy90s", "sizeByConfinedWh",
    "sizeByH", "sizeByPct", "sizeByW", "sizeByWh", "sizeUpscaling"].map txt

/-- `DEFAULT_TILE_SIZE`. -/
def defaultTileSize : ℕ := 512

/-- The loop of `levels`, from `n` on. -/
def levelsFrom (dim tile : ℕ) : ℕ → ℕ → Except Panic ℕ
  | 0, n => (shl 64 tile n).map fun _ => n
  | left + 1, n => do
    let side ← shl 64 tile n
    if side < dim then levelsFrom dim tile left (n + 1) else .ok n

/-- `levels`: the halvings of an axis to a tile. -/
def levels (dim tile : ℕ) : Except Panic ℕ := levelsFrom dim tile 64 0

/-- `pyramid_scale_factors`. -/
def pyramidScaleFactors (width height tileW tileH : ℕ) : Except Panic (List ℕ) := do
  let levelsW ← levels width tileW
  let levelsH ← levels height tileH
  (List.range (min (max levelsW levelsH) 31 + 1)).mapM (shl 32 1)

/-- The image divided by a factor. -/
def sizeFor (width height sf : ℕ) : Except Panic ImageSize := do
  let w ← divCeil width sf
  let h ← divCeil height sf
  return ⟨w, h⟩

/-- `sizes_for`. -/
def sizesFor (width height : ℕ) (scaleFactors : List ℕ) : Except Panic (List ImageSize) :=
  scaleFactors.reverse.mapM (sizeFor width height)

/-- The image is tiled. -/
def SipiImageDims.Tiled (d : SipiImageDims) : Prop := 0 < d.tileWidth ∧ 0 < d.tileHeight

instance (d : SipiImageDims) : Decidable d.Tiled := inferInstanceAs (Decidable (_ ∧ _))

/-- The sides of the tiles. -/
def SipiImageDims.tileGrid (d : SipiImageDims) : ℕ × ℕ :=
  if d.Tiled then (d.tileWidth.toNat, d.tileHeight.toNat) else (defaultTileSize, defaultTileSize)

/-- `image_info_json`. -/
def imageInfoJson (id : Str) (d : SipiImageDims) : Except Panic ImageInfo := do
  let factors ← pyramidScaleFactors d.width.toNat d.height.toNat d.tileGrid.1 d.tileGrid.2
  let sizes ← sizesFor d.width.toNat d.height.toNat factors
  return {
    context := txt "http://iiif.io/api/image/3/context.json"
    id := id
    type := txt "ImageService3"
    protocol := txt "http://iiif.io/api/image"
    profile := txt "level2"
    width := d.width.toNat
    height := d.height.toNat
    numpages := if 0 < d.numpages then some d.numpages.toNat else none
    sizes := sizes
    tiles := if d.Tiled then some [⟨d.tileWidth.toNat, d.tileHeight.toNat, factors⟩] else none
    extraFormats := ["tif", "jp2"].map txt
    preferredFormats := ["jpg", "tif", "jp2", "png"].map txt
    extraFeatures := extraFeatures }

theorem shl_eq {bits a n : ℕ} (hn : n < bits) (h : a * 2 ^ n < 2 ^ bits) : shl bits a n = .ok (a * 2 ^ n) := by
  rw [shl, if_pos hn, Nat.mod_eq_of_lt h]

theorem divCeil_eq (a : ℕ) {b : ℕ} (hb : 0 < b) : divCeil a b = .ok (a ⌈/⌉ b) := by
  rw [divCeil, if_neg hb.ne', Nat.ceilDiv_eq_add_pred_div]
  congr 1
  have hd := Nat.div_add_mod a b
  have hlt := Nat.mod_lt a hb
  generalize a / b = q, a % b = r at *
  subst hd
  split_ifs with hr
  · refine (Nat.div_eq_of_lt_le ?_ ?_).symm
    · rw [Nat.add_mul, Nat.one_mul, Nat.mul_comm]
      omega
    · rw [Nat.add_mul, Nat.add_mul, Nat.one_mul, Nat.mul_comm]
      omega
  · refine (Nat.div_eq_of_lt_le ?_ ?_).symm
    · rw [Nat.mul_comm]
      omega
    · rw [Nat.add_mul, Nat.one_mul, Nat.mul_comm]
      omega

section
variable {dim tile : ℕ}

theorem level_le_thirtyTwo (hd : dim < 2 ^ 32) (ht : 0 < tile) : level dim tile ≤ 32 := by
  rw [level_le_iff ht, ceilDiv_two_pow_le_iff]
  exact hd.le.trans (Nat.le_mul_of_pos_right _ ht)

theorem levels_eq (hd : dim < 2 ^ 32) (ht : 0 < tile) (hlt : tile < 2 ^ 32) :
    levels dim tile = .ok (level dim tile) := by
  have hlv := level_le_thirtyTwo hd ht
  -- the level is not behind, and there are rounds left to reach it
  have hlp : ∀ left n, n ≤ level dim tile → level dim tile < n + left →
      levelsFrom dim tile left n = .ok (level dim tile) := by
    intro left
    induction left with
    | zero => exact fun n hle hls => absurd hle (by omega)
    | succ left ih =>
      intro n hle hls
      have hs : tile * 2 ^ n < 2 ^ 64 := by
        calc tile * 2 ^ n ≤ tile * 2 ^ 32 := Nat.mul_le_mul_left _ (Nat.pow_le_pow_right (by norm_num) (by omega))
          _ < 2 ^ 32 * 2 ^ 32 := Nat.mul_lt_mul_of_pos_right hlt (by norm_num)
          _ = 2 ^ 64 := by norm_num
      rw [levelsFrom, shl_eq (by omega) hs]
      show (if tile * 2 ^ n < dim then levelsFrom dim tile left (n + 1) else .ok n) = _
      have hr : tile * 2 ^ n < dim ↔ n < level dim tile := by
        rw [Nat.mul_comm, ← lt_ceilDiv_two_pow_iff, ← not_le, ← level_le_iff ht, not_le]
      split_ifs with hm
      · exact ih (n + 1) (hr.1 hm) (by omega)
      · rw [le_antisymm hle (not_lt.1 fun hl => hm (hr.2 hl))]
  exact hlp 64 0 (Nat.zero_le _) (by omega)

theorem ceilDiv_two_pow_lt {i j : ℕ} (ht : 0 < tile) (hij : i < j) (hj : j ≤ level dim tile) :
    dim ⌈/⌉ 2 ^ j < dim ⌈/⌉ 2 ^ i := by
  have hm : tile < dim ⌈/⌉ 2 ^ i := by
    rw [← not_le, ← level_le_iff ht]
    omega
  have hn : dim ⌈/⌉ 2 ^ (i + 1) < dim ⌈/⌉ 2 ^ i := by
    rw [Nat.lt_iff_le_pred (by omega), ceilDiv_two_pow_le_iff]
    calc dim ≤ 2 ^ i * (dim ⌈/⌉ 2 ^ i) := le_mul_ceilDiv dim (by positivity)
      _ ≤ 2 ^ i * (2 * (dim ⌈/⌉ 2 ^ i - 1)) := Nat.mul_le_mul_left _ (by omega)
      _ = 2 ^ (i + 1) * (dim ⌈/⌉ 2 ^ i - 1) := by ring
  exact (ceilDiv_two_pow_antitone dim hij).trans_lt hn

end

/-! ### The pyramid -/

/-- Divided by `2 ^ n`, it fits into a tile. -/
def FitsAt (width height tileW tileH n : ℕ) : Prop := width ⌈/⌉ 2 ^ n ≤ tileW ∧ height ⌈/⌉ 2 ^ n ≤ tileH

/-- The least level that fits a tile, or 31. -/
structure Depth (width height tileW tileH n : ℕ) : Prop where
  le : n ≤ 31
  fits : FitsAt width height tileW tileH n ∨ n = 31
  least : ∀ k < n, ¬ FitsAt width height tileW tileH k

/-- The sizes of a pyramid, smallest first. -/
def ladder (width height n : ℕ) : List ImageSize :=
  ((List.range (n + 1)).map fun i => ⟨width ⌈/⌉ 2 ^ i, height ⌈/⌉ 2 ^ i⟩).reverse

/-- No larger on either axis, and not the same. -/
def ImageSize.Before (a b : ImageSize) : Prop := a.width ≤ b.width ∧ a.height ≤ b.height ∧ a ≠ b

section
variable {width height tileW tileH n : ℕ}

theorem fitsAt_iff (hw : 0 < tileW) (hh : 0 < tileH) :
    FitsAt width height tileW tileH n ↔ max (level width tileW) (level height tileH) ≤ n := by
  rw [FitsAt, ← level_le_iff hw, ← level_le_iff hh, max_le_iff]

theorem depth_of_levels (hw : 0 < tileW) (hh : 0 < tileH) :
    Depth width height tileW tileH (min (max (level width tileW) (level height tileH)) 31) where
  le := min_le_right _ _
  fits := by
    rw [fitsAt_iff hw hh]
    omega
  least k hk := by
    rw [fitsAt_iff hw hh]
    omega

theorem pyramidScaleFactors_eq (hwd : width < 2 ^ 32) (hhg : height < 2 ^ 32) (hw : 0 < tileW)
    (hwl : tileW < 2 ^ 32) (hh : 0 < tileH) (hhl : tileH < 2 ^ 32) :
    ∃ n, Depth width height tileW tileH n ∧
      pyramidScaleFactors width height tileW tileH = .ok ((List.range (n + 1)).map (2 ^ ·)) := by
  refine ⟨_, depth_of_levels hw hh, ?_⟩
  rw [pyramidScaleFactors, levels_eq hwd hw hwl, levels_eq hhg hh hhl]
  refine mapM_eq_ok fun i hi => ?_
  have hle : i < 32 := by
    rw [List.mem_range] at hi
    omega
  rw [shl_eq hle (by rw [Nat.one_mul]; exact Nat.pow_lt_pow_right (by norm_num) hle), Nat.one_mul]

theorem sizesFor_eq (width height n : ℕ) :
    sizesFor width height ((List.range (n + 1)).map (2 ^ ·)) = .ok (ladder width height n) := by
  rw [ladder, ← List.map_reverse, sizesFor, ← List.map_reverse, List.mapM_map]
  refine mapM_eq_ok fun i _ => ?_
  have hp : 0 < 2 ^ i := Nat.two_pow_pos i
  rw [Function.comp_apply, sizeFor, divCeil_eq _ hp, divCeil_eq _ hp]
  rfl

theorem ladder_ascends (hw : 0 < tileW) (hh : 0 < tileH) (hd : Depth width height tileW tileH n) :
    (ladder width height n).Pairwise ImageSize.Before := by
  rw [ladder, List.pairwise_reverse, List.pairwise_map]
  refine List.pairwise_lt_range.imp_of_mem fun {i j} hi hj hij => ?_
  rw [List.mem_range] at hj
  refine ⟨ceilDiv_two_pow_antitone width hij.le, ceilDiv_two_pow_antitone height hij.le, fun hsm => ?_⟩
  obtain ⟨hsw, hs⟩ := ImageSize.mk.inj hsm
  -- one of the axes does not fit before the last level
  have hdp : j ≤ max (level width tileW) (level height tileH) := by
    by_contra hl
    exact hd.least (j - 1) (by omega) ((fitsAt_iff hw hh).2 (by omega))
  rcases le_max_iff.1 hdp with hx | hy
  · exact (ceilDiv_two_pow_lt hw hij hx).ne hsw
  · exact (ceilDiv_two_pow_lt hh hij hy).ne hs

theorem ladder_last (width height n : ℕ) : (ladder width height n).getLast? = some ⟨width, height⟩ := by
  simp [ladder, List.range_succ_eq_map]

end

theorem tileGrid_bounds (d : SipiImageDims) :
    (0 < d.tileGrid.1 ∧ d.tileGrid.1 < 2 ^ 32) ∧ 0 < d.tileGrid.2 ∧ d.tileGrid.2 < 2 ^ 32 := by
  unfold SipiImageDims.tileGrid
  split_ifs with h
  · exact ⟨⟨h.1, d.tileWidth.toNat_lt⟩, h.2, d.tileHeight.toNat_lt⟩
  · decide

/-- **The advertised pyramid.** For every image nothing panics; the factors are the powers of two up to the least
level at which the image fits into one tile, and the sizes are the image divided by each of them, ascending and no
two the same. -/
theorem imageInfoJson_pyramid (id : Str) (d : SipiImageDims) :
    ∃ info n,
      imageInfoJson id d = .ok info ∧
      Depth d.width.toNat d.height.toNat d.tileGrid.1 d.tileGrid.2 n ∧
      pyramidScaleFactors d.width.toNat d.height.toNat d.tileGrid.1 d.tileGrid.2 =
        .ok ((List.range (n + 1)).map (2 ^ ·)) ∧
      (∀ tiles ∈ info.tiles, tiles = [⟨d.tileWidth.toNat, d.tileHeight.toNat, (List.range (n + 1)).map (2 ^ ·)⟩]) ∧
      info.sizes = (((List.range (n + 1)).map (2 ^ ·)).map
        fun sf => (⟨d.width.toNat ⌈/⌉ sf, d.height.toNat ⌈/⌉ sf⟩ : ImageSize)).reverse ∧
      info.sizes.Pairwise ImageSize.Before ∧
      info.sizes.getLast? = some ⟨d.width.toNat, d.height.toNat⟩ := by
  obtain ⟨⟨hw, hwl⟩, hh, hhl⟩ := tileGrid_bounds d
  obtain ⟨n, hd, hf⟩ := pyramidScaleFactors_eq d.width.toNat_lt d.height.toNat_lt hw hwl hh hhl
  have hi : ∃ info, imageInfoJson id d = .ok info ∧ info.sizes = ladder d.width.toNat d.height.toNat n ∧
      info.tiles = if d.Tiled then
        some [⟨d.tileWidth.toNat, d.tileHeight.toNat, (List.range (n + 1)).map (2 ^ ·)⟩] else none := by
    rw [imageInfoJson, hf]
    simp only [bind, Except.bind, sizesFor_eq]
    exact ⟨_, rfl, rfl, rfl⟩
  obtain ⟨info, hok, hs, ht⟩ := hi
  refine ⟨info, n, hok, hd, hf, fun tiles hm => ?_, ?_, ?_, ?_⟩
  · rw [ht, Option.mem_def, Option.ite_none_right_eq_some] at hm
    exact (Option.some_inj.1 hm.2).symm
  · rw [hs, ladder, List.map_map]
    rfl
  · rw [hs]
    exact ladder_ascends hw hh hd
  · rw [hs, ladder_last]

example : (imageInfoJson [] ⟨1, 5, 0, 1, 1⟩).map ImageInfo.sizes = .ok [⟨1, 1⟩, ⟨1, 2⟩, ⟨1, 3⟩, ⟨1, 5⟩] := by
  decide +kernel

end Sipi.Serve
