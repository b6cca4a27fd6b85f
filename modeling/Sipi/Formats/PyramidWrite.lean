import Sipi.Formats.Bilevel
import Sipi.Formats.BlockMean
import Sipi.Formats.Tiles

/-!
# Writing a pyramid

With the pyramid option `SipiIOTiff::write` writes a directory for each level.

## Honest scope

The sides of the smaller levels are exact quotients; the full resolution does not depend on them.
-/

namespace Sipi.Formats

open Sipi.Theory Sipi.Geometry Sipi.Iiif

/-- The bytes of samples, as they lie in memory. -/
def sampleBytes {w : Width} (samples : Buffer w.Sample) : Buffer UInt8 :=
  ⟨w.bytes * samples.size, fun i => (element w (samples.get (i / w.bytes)).toNat).get (i % w.bytes)⟩

theorem sampleBytes_size {w : Width} (samples : Buffer w.Sample) :
    (sampleBytes samples).size = w.bytes * samples.size := rfl

/-- What writing must not do. -/
inductive PyramidFault where
  | overrun
  | runsOn
  | directory
  | overflow
  deriving DecidableEq

/-- Half of the scale: 128, or 32768. -/
def half (w : Width) : w.Sample := BitVec.ofNat _ (2 ^ (8 * w.bytes - 1))

/-- A sample less 128, as a signed number. -/
def shiftSample {w : Width} (samples : Buffer w.Sample) (i : ℕ) : Except PyramidFault (Buffer w.Sample) :=
  samples.fetch .overrun i >>= fun v => samples.put .overrun i (v - half w)

/-- The samples as written: `CIELAB` is signed. -/
def TiffSource.written (img : TiffSource) : Except PyramidFault (Buffer img.width.Sample) :=
  if img.cielab then
    forPixels img.nx img.ny (fun x y samples =>
      shiftSample samples (img.nc * (y * img.nx + x) + 1) >>= fun samples =>
        shiftSample samples (img.nc * (y * img.nx + x) + 2)) img.pixels
  else .ok img.pixels

/-! ### One level -/

/-- The sides of a tile, of type `uint32_t`. -/
structure TileSides where
  w : ℕ
  h : ℕ
  w_pos : 0 < w := by decide
  h_pos : 0 < h := by decide
  w_lt : w < 2 ^ 32 := by decide
  h_lt : h < 2 ^ 32 := by decide

/-- `write_basic_tags`, and the sides of the tiles. -/
def writeBasicTags (s : TiffShape) (nnx nny : ℕ) (t : TileSides) : Except PyramidFault Layout :=
  if h : 0 < u32 nnx ∧ 0 < u32 nny ∧ 0 < s.nc % 2 ^ 16 then
    .ok {
      dims := ⟨u32 nnx, u32 nny, h.1, h.2.1⟩
      nx_lt := Nat.mod_lt _ (by norm_num)
      ny_lt := Nat.mod_lt _ (by norm_num)
      nc := s.nc % 2 ^ 16
      nc_pos := h.2.2
      bpsTag := some s.bps
      photo := s.photo
      planar := .contig
      compressed := false
      tileWidth := t.w
      tileLength := t.h
      scanlineSize := packedBytes (u32 nnx) (s.nc % 2 ^ 16) s.bps
      tileSize := packedBytes t.w (s.nc % 2 ^ 16) s.bps * t.h
      numberOfTiles := tileCount ⟨u32 nnx, u32 nny, h.1, h.2.1⟩ t.w t.h (s.nc % 2 ^ 16 / (s.nc % 2 ^ 16)) }
  else .error .directory

/-- The body of the inner loops: one byte of a tile. -/
def fillByte (nbuf : Buffer UInt8) (nc nnx nny : ℕ) (t : TileSides) (tx ty x y c : ℕ) (tilebuf : Buffer UInt8) :
    Except PyramidFault (Buffer UInt8) :=
  let xx := u32 (tx * t.w + x)
  let yy := u32 (ty * t.h + y)
  (if xx < nnx ∧ yy < nny then nbuf.fetch .overrun (nc * (yy * nnx + xx) + c) else .ok 0) >>= fun v =>
    tilebuf.put .overrun (nc * u32 (y * t.w + x) + c) v

/-- The inner loops: one tile. -/
def fillTile (nbuf : Buffer UInt8) (nc nnx nny : ℕ) (t : TileSides) (tx ty : ℕ) :
    Buffer UInt8 → Except PyramidFault (Buffer UInt8) :=
  forPixels t.w t.h fun x y => forCounter (2 ^ 32) .runsOn nc fun c => fillByte nbuf nc nnx nny t tx ty x y c

/-- `TIFFWriteTile`, within the image. -/
def writeTile (l : Layout) (x y : ℕ) (bytes : ℕ → UInt8) (tiles : Tiles) : Tiles := fun i j =>
  if x < l.dims.w ∧ y < l.dims.h ∧ i = x / l.tileWidth ∧ j = y / l.tileLength then some bytes else tiles i j

/-- The block of a tile, and the tiles written. -/
structure TileState where
  tilebuf : Buffer UInt8
  tiles : Tiles

/-- `ntiles_x` and `ntiles_y`. -/
def ntiles (side tileSide : ℕ) : ℕ := u32 ⌈floatDiv side tileSide⌉₊

/-- The outer loops: all tiles. -/
def writeTiles (l : Layout) (nbuf : Buffer UInt8) (nc nnx nny : ℕ) (t : TileSides) : Except PyramidFault TileState :=
  forPixels (ntiles nnx t.w) (ntiles nny t.h) (fun tx ty st =>
    (fillTile nbuf nc nnx nny t tx ty st.tilebuf).map fun tilebuf =>
      ⟨tilebuf, writeTile l (u32 (tx * t.w)) (u32 (ty * t.h)) tilebuf.get st.tiles⟩)
    ⟨.const l.tileSize 0, fun _ _ => none⟩

/-- A directory: its tags, and its tiles. -/
structure Directory where
  layout : Layout
  tiles : Tiles

/-- `doReduce<uint8_t>` on the bytes of an image. -/
def reduceBytes (bytes : Buffer UInt8) (level : ℕ) (d : Dims) (nc : ℕ) : Except PyramidFault (Buffer UInt8) :=
  match doReduce (w := .byte) ⟨bytes.size, fun i => (bytes.get i).toBitVec⟩ level d nc with
  | .ok reduced => .ok ⟨reduced.outbuf.size, fun i => UInt8.ofBitVec (reduced.outbuf.get i)⟩
  | .error .overrun => .error .overrun
  | .error .runsOn => .error .runsOn
  | .error .overflow => .error .overflow

/-- `SipiSize(level).get_size`. -/
def levelSize (level : ℕ) (d : Dims) : Except PyramidFault Resolved :=
  (getSizeReduce (some level) (sipiSizeReduce level) d).mapError fun _ => .overflow

/-- `write_subfile`, for sides `d`. -/
def writeSubfile (s : TiffShape) (d : Dims) (bytes : Buffer UInt8) (t : TileSides) (level : ℕ) :
    Except PyramidFault Directory :=
  levelSize level d >>= fun size =>
    writeBasicTags s size.w size.h t >>= fun layout =>
      (if 0 < level then reduceBytes bytes level d s.nc else .ok bytes) >>= fun nbuf =>
        (writeTiles layout nbuf s.nc size.w size.h t).map fun st => ⟨layout, st.tiles⟩

/-- The loop over the levels. -/
def levels (s : TiffShape) (d : Dims) (bytes : Buffer UInt8) (sides : ℕ → TileSides) :
    ℕ → ℕ → Except PyramidFault (List Directory)
  | 0, _ => .ok []
  | left + 1, reduce =>
    levelSize reduce d >>= fun size =>
      if min size.w size.h ≤ 32 then .ok []
      else writeSubfile s d bytes (sides reduce) reduce >>= fun directory =>
        (levels s d bytes sides left (reduce + 1)).map (directory :: ·)

/-- The directories of a pyramid. -/
def TiffSource.writePyramid (img : TiffSource) (sides : ℕ → TileSides) : Except PyramidFault (List Directory) :=
  img.written >>= fun samples =>
    if h : 0 < img.nx ∧ 0 < img.ny then
      levels img.toTiffShape ⟨img.nx, img.ny, h.1, h.2⟩ (sampleBytes samples) sides 6 0
    else .ok []

theorem single_mem_two_pow (n : ℕ) : single.Mem (2 ^ n) := by
  have hm : single.Mem ((1 : ℤ) * 2 ^ (n : ℤ)) :=
    Format.mem_of_abs_le (by norm_num [single]) (by simp only [single]; omega)
  simpa using hm

theorem floatDiv_le {a b n k : ℕ} (ha : a ≤ 2 ^ n) (hb : 2 ^ k ≤ b) (hk : k ≤ n) : floatDiv a b ≤ 2 ^ (n - k) := by
  have hr : single.round a ≤ 2 ^ n := Format.round_le (single_mem_two_pow n) (by exact_mod_cast ha)
  have hr' : 2 ^ k ≤ single.round b := Format.le_round (single_mem_two_pow k) (by exact_mod_cast hb)
  refine Format.round_le (single_mem_two_pow (n - k)) ?_
  calc single.round a / single.round b ≤ 2 ^ n / 2 ^ k := div_le_div₀ (by positivity) hr (by positivity) hr'
    _ = 2 ^ (n - k) := (pow_sub₀ 2 two_ne_zero hk).symm

theorem ceil_floatDiv_mul_lt {side tileSide : ℕ} (hside : side ≤ 2 ^ 27) (hpos : 0 < tileSide)
    (hlt : tileSide < 2 ^ 32) : ⌈floatDiv side tileSide⌉₊ * tileSide < 2 ^ 32 := by
  rcases Nat.lt_or_ge tileSide (2 ^ 27) with hs | hl
  · have hlg : Nat.log 2 tileSide < 27 := Nat.log_lt_of_lt_pow hpos.ne' hs
    have hle := floatDiv_le hside (Nat.pow_log_le_self 2 hpos.ne') hlg.le
    have hc : ⌈floatDiv side tileSide⌉₊ ≤ 2 ^ (27 - Nat.log 2 tileSide) := Nat.ceil_le.2 (by exact_mod_cast hle)
    calc ⌈floatDiv side tileSide⌉₊ * tileSide
        ≤ 2 ^ (27 - Nat.log 2 tileSide) * 2 ^ (Nat.log 2 tileSide + 1) :=
          Nat.mul_le_mul hc (Nat.lt_pow_succ_log_self (by decide) tileSide).le
      _ = 2 ^ 28 := by
          rw [← pow_add]
          congr 1
          omega
      _ < 2 ^ 32 := by norm_num
  · have hle := floatDiv_le hside hl le_rfl
    have hc : ⌈floatDiv side tileSide⌉₊ ≤ 1 := Nat.ceil_le.2 (by simpa using hle)
    calc ⌈floatDiv side tileSide⌉₊ * tileSide ≤ 1 * tileSide := Nat.mul_le_mul_right _ hc
      _ < 2 ^ 32 := by omega

theorem epsilonCeilDivision_le (a b : ℕ) : epsilonCeilDivision a b ≤ ⌈floatDiv a b⌉₊ := by
  rw [epsilonCeilDivision]
  split_ifs
  · exact Nat.floor_le_ceil _
  · exact le_rfl

/-- There are enough tiles, and nothing wraps. -/
structure Cuts (side tileSide : ℕ) : Prop where
  covers : side ⌈/⌉ tileSide ≤ ntiles side tileSide
  places : ntiles side tileSide * tileSide < 2 ^ 32
  counted : u32 (epsilonCeilDivision side tileSide) = side ⌈/⌉ tileSide

section
variable {side tileSide : ℕ} (hside : side ≤ 2 ^ 27) (hpos : 0 < tileSide) (hlt : tileSide < 2 ^ 32)
include hside hpos hlt

theorem ntiles_eq : ntiles side tileSide = ⌈floatDiv side tileSide⌉₊ :=
  u32_of_lt ((Nat.le_mul_of_pos_right _ hpos).trans_lt (ceil_floatDiv_mul_lt hside hpos hlt))

theorem u32_epsilonCeilDivision : u32 (epsilonCeilDivision side tileSide) = epsilonCeilDivision side tileSide := by
  refine u32_of_lt (lt_of_le_of_lt ?_ (ceil_floatDiv_mul_lt hside hpos hlt))
  exact (epsilonCeilDivision_le _ _).trans (Nat.le_mul_of_pos_right _ hpos)

theorem counted_le (hc : u32 ((u32 (epsilonCeilDivision side tileSide) - 1) * tileSide) < side) :
    u32 (epsilonCeilDivision side tileSide) ≤ side ⌈/⌉ tileSide := by
  have hl : (u32 (epsilonCeilDivision side tileSide) - 1) * tileSide < 2 ^ 32 := by
    rw [u32_epsilonCeilDivision hside hpos hlt]
    refine lt_of_le_of_lt (Nat.mul_le_mul_right _ ?_) (ceil_floatDiv_mul_lt hside hpos hlt)
    exact (Nat.sub_le _ _).trans (epsilonCeilDivision_le _ _)
  rw [u32_of_lt hl, ← lt_ceilDiv_iff hpos] at hc
  omega

theorem cuts_of_counted (hc : u32 (epsilonCeilDivision side tileSide) = side ⌈/⌉ tileSide) :
    Cuts side tileSide where
  covers := by
    rw [ntiles_eq hside hpos hlt, ← hc, u32_epsilonCeilDivision hside hpos hlt]
    exact epsilonCeilDivision_le _ _
  places := by
    rw [ntiles_eq hside hpos hlt]
    exact ceil_floatDiv_mul_lt hside hpos hlt
  counted := hc

end

section
variable {nbuf tilebuf : Buffer UInt8} {nc nnx nny tx ty : ℕ} {t : TileSides}

/-- What is put into a tile. -/
def tileValue (nbuf : Buffer UInt8) (nc nnx nny X Y c : ℕ) : UInt8 :=
  if X < nnx ∧ Y < nny then nbuf.get (index nnx nc X Y c) else 0

theorem fillByte_eq (hn : nnx * nny * nc ≤ nbuf.size) (ht : t.w * t.h * nc ≤ tilebuf.size) {x y c : ℕ}
    (hx : x < t.w) (hy : y < t.h) (hc : c < nc) :
    fillByte nbuf nc nnx nny t tx ty x y c tilebuf =
      .ok (tilebuf.set (nc * u32 (y * t.w + x) + c)
        (tileValue nbuf nc nnx nny (u32 (tx * t.w + x)) (u32 (ty * t.h + y)) c)) := by
  have hp : nc * u32 (y * t.w + x) + c < tilebuf.size := by
    calc nc * u32 (y * t.w + x) + c ≤ index t.w nc x y c :=
          Nat.add_le_add_right (Nat.mul_le_mul_left _ (Nat.mod_le _ _)) _
      _ < t.w * t.h * nc := index_lt hx hy hc
      _ ≤ tilebuf.size := ht
  simp only [fillByte, tileValue]
  split_ifs with hin
  · have hf : nbuf.fetch PyramidFault.overrun (nc * (u32 (ty * t.h + y) * nnx + u32 (tx * t.w + x)) + c) =
        .ok (nbuf.get (index nnx nc (u32 (tx * t.w + x)) (u32 (ty * t.h + y)) c)) :=
      Buffer.fetch_of_lt _ ((index_lt hin.1 hin.2 hc).trans_le hn)
    rw [hf, ok_bind, Buffer.put_of_lt _ hp]
  · rw [ok_bind, Buffer.put_of_lt _ hp]

theorem fillTile_eq (hnc : nc < 2 ^ 32) :
    fillTile nbuf nc nnx nny t tx ty = forSamples t.w t.h nc (fillByte nbuf nc nnx nny t tx ty) := by
  funext tilebuf
  rw [fillTile, forSamples_eq]
  simp only [forCounter_of_lt hnc]

theorem fillTile_keeps (hnc : nc < 2 ^ 32) (hn : nnx * nny * nc ≤ nbuf.size)
    (ht : t.w * t.h * nc ≤ tilebuf.size) {P : UInt8 → Prop} (hz : P 0)
    (hs : ∀ i < nnx * nny * nc, P (nbuf.get i)) (hb : ∀ i, P (tilebuf.get i)) :
    Ends (fillTile nbuf nc nnx nny t tx ty tilebuf) (fun out => out.size = tilebuf.size ∧ ∀ i, P (out.get i))
      fun _ => False := by
  rw [fillTile_eq hnc]
  refine forSamples_ends (fun _ (out : Buffer UInt8) => out.size = tilebuf.size ∧ ∀ i, P (out.get i)) ⟨rfl, hb⟩
    fun x hx y hy c hc out ho => ?_
  rw [fillByte_eq hn (ho.1 ▸ ht) hx hy hc]
  refine ⟨ho.1, fun i => ?_⟩
  have hv : P (tileValue nbuf nc nnx nny (u32 (tx * t.w + x)) (u32 (ty * t.h + y)) c) := by
    rw [tileValue]
    split_ifs with hin
    · exact hs _ (index_lt hin.1 hin.2 hc)
    · exact hz
  by_cases hi : i = nc * u32 (y * t.w + x) + c
  · rw [hi, Buffer.get_set_self]
    exact hv
  · rw [Buffer.get_set_of_ne _ hi]
    exact ho.2 i

/-- The bytes of the tile at `tx` and `ty`. -/
def IsTile (nbuf : Buffer UInt8) (nc nnx nny : ℕ) (t : TileSides) (tx ty : ℕ) (bytes : ℕ → UInt8) : Prop :=
  ∀ x < t.w, ∀ y < t.h, ∀ c < nc,
    bytes (index t.w nc x y c) = tileValue nbuf nc nnx nny (tx * t.w + x) (ty * t.h + y) c

theorem fillTile_ends (hnc : nc < 2 ^ 32) (hn : nnx * nny * nc ≤ nbuf.size)
    (ht : t.w * t.h * nc ≤ tilebuf.size) (ha : t.w * t.h < 2 ^ 32) (hcl : tx * t.w + t.w ≤ 2 ^ 32)
    (hr : ty * t.h + t.h ≤ 2 ^ 32) :
    Ends (fillTile nbuf nc nnx nny t tx ty tilebuf)
      (fun out => out.size = tilebuf.size ∧ IsTile nbuf nc nnx nny t tx ty out.get) fun _ => False := by
  rw [fillTile_eq hnc]
  refine (forSamples_ends (fun q (out : Buffer UInt8) => out.size = tilebuf.size ∧
    ∀ x < t.w, ∀ y < t.h, ∀ c < nc, index t.w nc x y c < q →
      out.get (index t.w nc x y c) = tileValue nbuf nc nnx nny (tx * t.w + x) (ty * t.h + y) c)
    ⟨rfl, fun _ _ _ _ _ _ hq => absurd hq (Nat.not_lt_zero _)⟩ fun x hx y hy c hc out ho => ?_).imp
    fun out ho => ⟨ho.1, fun x hx y hy c hc => ho.2 x hx y hy c hc (index_lt hx hy hc)⟩
  have hp := place_lt hx hy
  rw [fillByte_eq hn (ho.1 ▸ ht) hx hy hc, u32_of_lt (hp.trans ha), u32_of_lt (by omega),
    u32_of_lt (by omega)]
  refine ⟨ho.1, fun x' hx' y' hy' c' hc' hq => ?_⟩
  rcases Nat.lt_succ_iff_lt_or_eq.1 hq with hb | hs
  · exact (Buffer.get_set_of_ne out hb.ne _).trans (ho.2 x' hx' y' hy' c' hc' hb)
  · obtain ⟨rfl, rfl, rfl⟩ := index_inj hx' hc' hx hc hs
    exact Buffer.get_set_self out _ _

variable {l : Layout}

theorem writeTile_self (hw : l.tileWidth = t.w) (hh : l.tileLength = t.h) (hx : tx * t.w < l.dims.w)
    (hy : ty * t.h < l.dims.h) (bytes : ℕ → UInt8) (tiles : Tiles) :
    writeTile l (tx * t.w) (ty * t.h) bytes tiles tx ty = some bytes := by
  rw [writeTile, hw, hh, Nat.mul_div_cancel _ t.w_pos, Nat.mul_div_cancel _ t.h_pos, if_pos ⟨hx, hy, rfl, rfl⟩]

theorem writeTile_of_ne (hw : l.tileWidth = t.w) (hh : l.tileLength = t.h) (bytes : ℕ → UInt8) (tiles : Tiles)
    {i j : ℕ} (hne : ¬ (i = tx ∧ j = ty)) : writeTile l (tx * t.w) (ty * t.h) bytes tiles i j = tiles i j := by
  rw [writeTile, hw, hh, Nat.mul_div_cancel _ t.w_pos, Nat.mul_div_cancel _ t.h_pos, if_neg fun h => hne h.2.2]

/-- Every tile of the image is there. -/
def TilesHold (nbuf : Buffer UInt8) (nc nnx nny : ℕ) (t : TileSides) (tiles : Tiles) : Prop :=
  ∀ i < nnx ⌈/⌉ t.w, ∀ j < nny ⌈/⌉ t.h, ∃ bytes, tiles i j = some bytes ∧ IsTile nbuf nc nnx nny t i j bytes

theorem writeTiles_ends (hnc : nc < 2 ^ 32) (hnb : nnx * nny * nc ≤ nbuf.size) (hw : l.tileWidth = t.w)
    (hh : l.tileLength = t.h) (hnx : l.dims.w = nnx) (hny : l.dims.h = nny) (hsz : l.tileSize = t.w * t.h * nc)
    (ha : t.w * t.h < 2 ^ 32) (hc : Cuts nnx t.w) (hr : Cuts nny t.h) :
    Ends (writeTiles l nbuf nc nnx nny t) (fun st => TilesHold nbuf nc nnx nny t st.tiles) fun _ => False := by
  have hp : ∀ {n k side : ℕ}, n * side < 2 ^ 32 → k < n → k * side + side ≤ 2 ^ 32 := by
    intro n k side hn hk
    have hle := Nat.mul_le_mul_right side (Nat.succ_le_of_lt hk)
    rw [Nat.succ_mul] at hle
    omega
  refine (forPixels_ends (fun q (st : TileState) => st.tilebuf.size = t.w * t.h * nc ∧
    ∀ i < nnx ⌈/⌉ t.w, ∀ j < nny ⌈/⌉ t.h, j * ntiles nnx t.w + i < q →
      ∃ bytes, st.tiles i j = some bytes ∧ IsTile nbuf nc nnx nny t i j bytes)
    ⟨hsz, fun _ _ _ _ hq => absurd hq (Nat.not_lt_zero _)⟩ fun tx htx ty hty st hst => ?_).imp
    fun st hst i hi j hj => hst.2 i hi j hj ?_
  · have hx := hp hc.places htx
    have hy := hp hr.places hty
    have hwd := t.w_pos
    have hhg := t.h_pos
    refine (fillTile_ends hnc hnb hst.1.ge ha hx hy).map fun out ho => ⟨ho.1.trans hst.1, ?_⟩
    intro i hi j hj hq
    rw [u32_of_lt (by omega), u32_of_lt (by omega)]
    by_cases hs : i = tx ∧ j = ty
    · obtain ⟨rfl, rfl⟩ := hs
      rw [lt_ceilDiv_iff hwd, ← hnx] at hi
      rw [lt_ceilDiv_iff hhg, ← hny] at hj
      exact ⟨out.get, writeTile_self hw hh hi hj _ _, ho.2⟩
    · simp only [writeTile_of_ne hw hh _ _ hs]
      refine hst.2 i hi j hj (lt_of_le_of_ne (Nat.le_of_lt_succ hq) fun heq => hs ?_)
      have hin : index (ntiles nnx t.w) 1 i j 0 = index (ntiles nnx t.w) 1 tx ty 0 := by simpa [index] using heq
      obtain ⟨hi', hj', -⟩ := index_inj (hi.trans_le hc.covers) Nat.one_pos htx Nat.one_pos hin
      exact ⟨hi', hj'⟩
  · exact place_lt (hi.trans_le hc.covers) (hj.trans_le hr.covers)

theorem writeTiles_keeps (hnc : nc < 2 ^ 32) (hn : nnx * nny * nc ≤ nbuf.size)
    (ht : t.w * t.h * nc ≤ l.tileSize) {P : UInt8 → Prop} (hz : P 0) (hs : ∀ i < nnx * nny * nc, P (nbuf.get i)) :
    Ends (writeTiles l nbuf nc nnx nny t) (fun st => ∀ i j bytes, st.tiles i j = some bytes → ∀ r, P (bytes r))
      fun _ => False := by
  refine (forPixels_ends (fun _ (st : TileState) => (st.tilebuf.size = l.tileSize ∧ ∀ r, P (st.tilebuf.get r)) ∧
    ∀ i j bytes, st.tiles i j = some bytes → ∀ r, P (bytes r)) ⟨⟨rfl, fun _ => hz⟩, by simp⟩
    fun tx _ ty _ st hst => ?_).imp fun st hst => hst.2
  refine (fillTile_keeps hnc hn (hst.1.1 ▸ ht) hz hs hst.1.2).map fun out ho =>
    ⟨⟨ho.1.trans hst.1.1, ho.2⟩, fun i j bytes hb => ?_⟩
  simp only [writeTile] at hb
  split_ifs at hb
  · cases hb
    exact ho.2
  · exact hst.2 i j bytes hb

end

theorem half_add_half (w : Width) : half w + half w = 0 := by cases w <;> decide

theorem shiftSample_ends {w : Width} (samples : Buffer w.Sample) (i : ℕ) :
    Ends (shiftSample samples i)
      (fun out => i < samples.size ∧ out = samples.set i (samples.get i - half w)) fun _ => True := by
  rcases Nat.lt_or_ge i samples.size with hlt | hge
  · rw [shiftSample, Buffer.fetch_of_lt _ hlt, ok_bind, Buffer.put_of_lt _ hlt]
    exact ⟨hlt, rfl⟩
  · rw [shiftSample, Buffer.fetch, if_neg (by omega)]
    trivial

section
variable {img : TiffSource}

theorem written_ends (img : TiffSource) :
    Ends img.written (fun samples => samples.size = img.pixels.size ∧ ∀ p,
      samples.get p = img.pixels.get p ∨ samples.get p = img.pixels.get p - half img.width) fun _ => True := by
  have hst : ∀ (samples : Buffer img.width.Sample) (i : ℕ),
      (samples.size = img.pixels.size ∧ ∀ p,
        samples.get p = img.pixels.get p ∨ samples.get p = img.pixels.get p - half img.width) →
      Ends (shiftSample samples i) (fun samples => samples.size = img.pixels.size ∧ ∀ p,
        samples.get p = img.pixels.get p ∨ samples.get p = img.pixels.get p - half img.width) fun _ => True := by
    intro samples i hs
    refine (shiftSample_ends samples i).mono ?_ fun _ => id
    rintro _ ⟨-, rfl⟩
    refine ⟨hs.1, fun p => ?_⟩
    by_cases hp : p = i
    · subst hp
      rw [Buffer.get_set_self]
      rcases hs.2 p with hsm | hsh
      · exact .inr (by rw [hsm])
      · refine .inl ?_
        rw [hsh, sub_sub, half_add_half, sub_zero]
    · rw [Buffer.get_set_of_ne _ hp]
      exact hs.2 p
  rw [TiffSource.written]
  split_ifs
  · refine forPixels_ends (fun _ (samples : Buffer img.width.Sample) => samples.size = img.pixels.size ∧ ∀ p,
      samples.get p = img.pixels.get p ∨ samples.get p = img.pixels.get p - half img.width) ⟨rfl, fun _ => .inl rfl⟩
      fun x _ y _ samples hs => ?_
    exact (hst samples _ hs).bind fun samples => hst samples _
  · exact ⟨rfl, fun _ => .inl rfl⟩

theorem written_of_lab (hlb : img.cielab = true) (hpos : 0 < img.nx * img.ny) :
    Ends img.written (fun samples => samples.get 1 = img.pixels.get 1 - half img.width) fun _ => True := by
  rw [TiffSource.written, if_pos hlb]
  refine (forPixels_ends (fun q (samples : Buffer img.width.Sample) => samples.size = img.nx * img.ny * img.nc ∧
    (q = img.nx * img.ny → 0 < q → 3 ≤ img.nc) ∧
    (3 ≤ img.nc → samples.get 1 = if q = 0 then img.pixels.get 1 else img.pixels.get 1 - half img.width))
    ⟨img.size_eq, fun _ h => absurd h (lt_irrefl 0), fun _ => rfl⟩ fun x hx y hy samples hs => ?_).imp
    fun samples h => by rw [h.2.2 (h.2.1 rfl hpos), if_neg hpos.ne']
  obtain ⟨hsz, -, ho⟩ := hs
  set q := y * img.nx + x
  refine (shiftSample_ends samples _).bind ?_
  rintro _ ⟨-, rfl⟩
  refine (shiftSample_ends _ _).mono ?_ fun _ => id
  rintro _ ⟨hlt, rfl⟩
  have hl : img.nc * q + 2 < img.nx * img.ny * img.nc := hsz ▸ hlt
  refine ⟨hsz, fun hq _ => ?_, fun hnc => ?_⟩
  · rw [← hq, Nat.mul_comm _ img.nc, Nat.mul_succ] at hl
    omega
  · rw [if_neg (by omega)]
    rcases Nat.eq_zero_or_pos q with hq | hq
    · rw [hq, Nat.mul_zero, Nat.zero_add, Nat.zero_add, Buffer.get_set_of_ne _ (by decide), Buffer.get_set_self,
        ho hnc, if_pos hq]
    · have hn : 3 * 1 ≤ img.nc * q := Nat.mul_le_mul hnc hq
      rw [Buffer.get_set_of_ne _ (by omega), Buffer.get_set_of_ne _ (by omega), ho hnc, if_neg hq.ne']

end

end Sipi.Formats
