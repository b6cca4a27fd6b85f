import Sipi.Formats.PyramidWrite
import Sipi.Theory.Fallible
import Sipi.Theory.Pictures

/-!
# The picture of a pyramid

The first level of a pyramid has the full resolution.

## Honest scope

What becomes of the samples of a `CIELAB` image after its tiles are read is not modelled: the reader makes them
unsigned again if the file has no profile, but a service file has that of its essentials.
-/

namespace Sipi.Formats

open Sipi.Theory Sipi.Geometry Sipi.Iiif

/-- The whole of an image. -/
def Layout.whole (l : Layout) : Rect := ⟨0, 0, l.dims⟩

/-- The tiles of a full level are read as the image. -/
def Keeps (img : TiffSource) (sides : ℕ → TileSides) : Prop :=
  ∃ first rest, img.writePyramid sides = .ok (first :: rest) ∧
    ∃ out, readTiledData first.layout.width first.layout first.tiles first.layout.whole = .ok out ∧
      out.size = (sampleBytes img.pixels).size ∧ ∀ i < out.size, out.get i = (sampleBytes img.pixels).get i

/-! ### Reading the tiles back -/

variable {w : Width} {t : TileSides}

section
variable {l : Layout} {tiles : Tiles}

theorem startX_whole (l : Layout) : l.startX l.whole = 0 := by
  simp [Layout.startX, Layout.whole, epsilonFloorDivision, floatDiv, Format.round_zero, u32]

theorem startY_whole (l : Layout) : l.startY l.whole = 0 := by
  simp [Layout.startY, Layout.whole, epsilonFloorDivision, floatDiv, Format.round_zero, u32]

theorem endX_whole (l : Layout) : l.endX l.whole = u32 (epsilonCeilDivision l.dims.w l.tileWidth) := by
  rw [Layout.endX, Layout.whole, Nat.zero_add, u32_of_lt l.nx_lt]

theorem endY_whole (l : Layout) : l.endY l.whole = u32 (epsilonCeilDivision l.dims.h l.tileLength) := by
  rw [Layout.endY, Layout.whole, Nat.zero_add, u32_of_lt l.ny_lt]

theorem readTiledData_congr (h : Tiled l) {tiles' : Tiles} {roi : Rect}
    (hs : ∀ i < l.dims.w ⌈/⌉ l.tileWidth, ∀ j < l.dims.h ⌈/⌉ l.tileLength, tiles i j = tiles' i j) :
    readTiledData w l tiles roi = readTiledData w l tiles' roi := by
  have ht : readTile w l tiles = readTile w l tiles' := by
    funext tx ty
    simp only [readTile]
    by_cases ho : l.dims.w ≤ u32 (tx * l.tileWidth) ∨ l.dims.h ≤ u32 (ty * l.tileLength)
    · rw [if_pos ho, if_pos ho]
    · have hx := Nat.div_mul_le_self (u32 (tx * l.tileWidth)) l.tileWidth
      have hy := Nat.div_mul_le_self (u32 (ty * l.tileLength)) l.tileLength
      rw [if_neg ho, if_neg ho, hs _ ((lt_ceilDiv_iff h.width).2 (by omega)) _
        ((lt_ceilDiv_iff h.length).2 (by omega))]
  rw [readTiledData, readTiledData, ht]

/-- What the reader needs of a level but tiles. -/
structure Readable (l : Layout) (t : TileSides) : Prop where
  tiled : Tiled l
  width : l.tileWidth = t.w
  length : l.tileLength = t.h
  columns : Cuts l.dims.w t.w
  rows : Cuts l.dims.h t.h
  tile : l.tileSize < 2 ^ 32
  samples : l.dims.w * l.dims.h * l.nc < 2 ^ 32

theorem Readable.ends (h : Readable l t) :
    l.endX l.whole = l.dims.w ⌈/⌉ l.tileWidth ∧ l.endY l.whole = l.dims.h ⌈/⌉ l.tileLength := by
  rw [endX_whole, endY_whole, h.width, h.length]
  exact ⟨h.columns.counted, h.rows.counted⟩

theorem numberOfTiles_eq (h : Tiled l) (hs : l.dims.w * l.dims.h * l.nc < 2 ^ 32) :
    (l.dims.w ⌈/⌉ l.tileWidth) * (l.dims.h ⌈/⌉ l.tileLength) < 2 ^ 32 ∧
      l.numberOfTiles = (l.dims.w ⌈/⌉ l.tileWidth) * (l.dims.h ⌈/⌉ l.tileLength) := by
  have hc : l.nc / l.planar.channels l.nc = 1 := by
    rw [h.planar, Planar.channels, Nat.div_self l.nc_pos]
  have hlt : (l.dims.w ⌈/⌉ l.tileWidth) * (l.dims.h ⌈/⌉ l.tileLength) < 2 ^ 32 := by
    refine lt_of_le_of_lt ?_ hs
    exact (Nat.mul_le_mul (ceilDiv_le_self _ h.width) (ceilDiv_le_self _ h.length)).trans
      (Nat.le_mul_of_pos_right _ l.nc_pos)
  refine ⟨hlt, ?_⟩
  rw [l.tiles_counted, hc, tileCount, Nat.mul_one, if_pos hlt]

theorem Readable.countFits (h : Readable l t) : l.CountFits := by
  obtain ⟨hlt, hc⟩ := numberOfTiles_eq h.tiled h.samples
  rw [Layout.CountFits, hc]
  rw [h.width, h.length] at hlt ⊢
  rw [h.columns.counted, h.rows.counted, u32_of_lt hlt]

/-- The bytes of a tile of the image, zero elsewhere. -/
def tilesOr (tiles : Tiles) (i j : ℕ) : ℕ → UInt8 := (tiles i j).getD fun _ => 0

section
variable (h : Readable l t)
include h

theorem tileByte_eq (hbp : l.bps = 8) {nbuf : Buffer UInt8}
    (ht : TilesHold nbuf l.nc l.dims.w l.dims.h t tiles) {x y c : ℕ} (hx : x < l.dims.w) (hy : y < l.dims.h)
    (hc : c < l.nc) : tileByte l (tilesOr tiles) x y c 0 = nbuf.get (index l.dims.w l.nc x y c) := by
  have hX : x / t.w * t.w + x % t.w = x := Nat.div_add_mod' x t.w
  have hY : y / t.h * t.h + y % t.h = y := Nat.div_add_mod' y t.h
  obtain ⟨bytes, hb, htl⟩ := ht (x / t.w) ((lt_ceilDiv_iff t.w_pos).2 (by omega)) (y / t.h)
    ((lt_ceilDiv_iff t.h_pos).2 (by omega))
  have hv := htl (x % t.w) (Nat.mod_lt _ t.w_pos) (y % t.h) (Nat.mod_lt _ t.h_pos) c hc
  rw [hX, hY, tileValue, if_pos ⟨hx, hy⟩] at hv
  rw [tileByte, tilesOr, h.width, h.length, hb, width_bytes_of_ne (by omega), ← hv, Option.getD_some, index]
  congr 1
  ring

theorem Readable.column {k : ℕ} (hk : k < l.endX l.whole) : k * l.tileWidth < l.dims.w :=
  (lt_ceilDiv_iff h.tiled.width).1 (h.ends.1 ▸ hk)

theorem Readable.row {k : ℕ} (hk : k < l.endY l.whole) : k * l.tileLength < l.dims.h :=
  (lt_ceilDiv_iff h.tiled.length).1 (h.ends.2 ▸ hk)

theorem Readable.fits : PlacesFit l l.whole ∧ Spans l l.whole := by
  obtain ⟨he, hey⟩ := h.ends
  have hp : 0 < l.endX l.whole := he ▸ ceilDiv_pos l.dims.w_pos h.tiled.width
  have hpy : 0 < l.endY l.whole := hey ▸ ceilDiv_pos l.dims.h_pos h.tiled.length
  refine ⟨⟨(h.column (by omega)).trans l.nx_lt, (h.row (by omega)).trans l.ny_lt⟩, ?_, ?_⟩
  · rw [startX_whole, he, h.width]
    exact (Nat.mul_le_mul_right _ h.columns.covers).trans h.columns.places.le
  · rw [startY_whole, hey, h.length]
    exact (Nat.mul_le_mul_right _ h.rows.covers).trans h.rows.places.le

theorem Readable.covered {x y : ℕ} (hx : x < l.dims.w) (hy : y < l.dims.h) :
    x / l.tileWidth < l.endX l.whole - l.startX l.whole ∧ y / l.tileLength < l.endY l.whole - l.startY l.whole := by
  have hX := Nat.div_mul_le_self x l.tileWidth
  have hY := Nat.div_mul_le_self y l.tileLength
  rw [startX_whole, startY_whole, h.ends.1, h.ends.2, Nat.sub_zero, Nat.sub_zero, lt_ceilDiv_iff h.tiled.width,
    lt_ceilDiv_iff h.tiled.length]
  omega

theorem reads_back (hbp : l.bps = 8) {nbuf : Buffer UInt8} (ht : TilesHold nbuf l.nc l.dims.w l.dims.h t tiles) :
    ∃ out, readTiledData l.width l tiles l.whole = .ok out ∧ out.size = l.dims.w * l.dims.h * l.nc ∧
      ∀ i < out.size, out.get i = nbuf.get i := by
  have hb : l.width.bytes = 1 := width_bytes_of_ne (by omega)
  obtain ⟨hp, hsp⟩ := h.fits
  have hin : InImage l l.whole := fun tx _ hx ty _ hy => ⟨h.column hx, h.row hy⟩
  have hsm : ∀ i < l.dims.w ⌈/⌉ l.tileWidth, ∀ j < l.dims.h ⌈/⌉ l.tileLength,
      tiles i j = some (tilesOr tiles i j) := by
    intro i hi j hj
    obtain ⟨bytes, hso, -⟩ := ht i (h.width ▸ hi) j (h.length ▸ hj)
    rw [tilesOr, hso, Option.getD_some]
  obtain ⟨out, ho, hf⟩ :=
    (placed_ends h.tiled h.countFits hp hsp h.tile h.samples hin (tilesOr tiles)).exists_ok
  have hs : out.size = l.dims.w * l.dims.h * l.nc := by
    rw [hf.size, hb, Nat.one_mul]
    rfl
  refine ⟨out, by rw [readTiledData_congr h.tiled hsm, ho], hs, fun i hi => ?_⟩
  obtain ⟨x, hx, y, hy, c, hc, rfl⟩ := exists_index (hs ▸ hi)
  have hg := (hf.get x hx y hy c hc 0 (by omega)).1 (h.covered hx hy)
  rw [startX_whole, startY_whole, hb] at hg
  simp only [Nat.zero_mul, Nat.zero_add, Nat.one_mul, Nat.add_zero] at hg
  exact hg.trans (tileByte_eq h hbp ht hx hy hc)

end

end

/-! ### The directories -/

variable {l : Layout}

section
variable {s : TiffShape} {d : Dims} {t : TileSides} {bytes : Buffer UInt8}

/-- What the tags of a level say. -/
structure Tags (s : TiffShape) (nnx nny : ℕ) (t : TileSides) (l : Layout) : Prop where
  w : l.dims.w = u32 nnx
  h : l.dims.h = u32 nny
  nc : l.nc = s.nc % 2 ^ 16
  bps : l.bps = s.bps
  tiled : Tiled l
  width : l.tileWidth = t.w
  length : l.tileLength = t.h

theorem TiffShape.bps_cases (s : TiffShape) : s.bps = 8 ∨ s.bps = 16 := by
  rw [TiffShape.bps]
  cases s.width with
  | byte => exact .inl rfl
  | word => exact .inr rfl

variable {nnx nny : ℕ}

theorem tags_of_ok (h : writeBasicTags s nnx nny t = .ok l) : Tags s nnx nny t l := by
  rw [writeBasicTags] at h
  split_ifs at h with hp
  cases h
  exact ⟨rfl, rfl, rfl, rfl, ⟨rfl, s.bps_cases, t.w_pos, t.h_pos⟩, rfl, rfl⟩

theorem exists_tags (hw : 0 < u32 nnx) (hh : 0 < u32 nny) (hnc : 0 < s.nc % 2 ^ 16) (t : TileSides) :
    ∃ l, writeBasicTags s nnx nny t = .ok l ∧ Tags s nnx nny t l := by
  have hok : writeBasicTags s nnx nny t = .ok _ := dif_pos ⟨hw, hh, hnc⟩
  exact ⟨_, hok, tags_of_ok hok⟩

theorem Tags.width_eq (h : Tags s nnx nny t l) : l.width = s.width := by
  rw [Layout.width, h.bps, TiffShape.bps]
  cases s.width <;> rfl

theorem levelSize_eq {level : ℕ} (hl : level ≤ 30) (d : Dims) :
    levelSize level d = .ok ⟨d.w ⌈/⌉ 2 ^ level, d.h ⌈/⌉ 2 ^ level, level, decide (level = 0)⟩ := by
  rw [levelSize, mapError_eq_ok, getSizeReduce_eq (some level) hl, Option.elim_some, min_self]

theorem writeSubfile_eq {level : ℕ} (hl : level ≤ 30) :
    writeSubfile s d bytes t level =
      (writeBasicTags s (d.w ⌈/⌉ 2 ^ level) (d.h ⌈/⌉ 2 ^ level) t >>= fun layout =>
        (if 0 < level then reduceBytes bytes level d s.nc else .ok bytes) >>= fun nbuf =>
          (writeTiles layout nbuf s.nc (d.w ⌈/⌉ 2 ^ level) (d.h ⌈/⌉ 2 ^ level) t).map fun st =>
            ⟨layout, st.tiles⟩) := by
  rw [writeSubfile, levelSize_eq hl, ok_bind]

/-- Sides and channels that the tags can hold. -/
structure Tagged (s : TiffShape) (d : Dims) : Prop where
  w_lt : d.w < 2 ^ 32
  h_lt : d.h < 2 ^ 32
  nc_lt : s.nc < 2 ^ 16

theorem Tagged.exists_tags (h : Tagged s d) (t : TileSides) (level : ℕ) :
    ∃ l, writeBasicTags s (d.w ⌈/⌉ 2 ^ level) (d.h ⌈/⌉ 2 ^ level) t = .ok l ∧
      Tags s (d.w ⌈/⌉ 2 ^ level) (d.h ⌈/⌉ 2 ^ level) t l ∧ l.dims.w = d.w ⌈/⌉ 2 ^ level ∧
      l.dims.h = d.h ⌈/⌉ 2 ^ level ∧ l.nc = s.nc := by
  have hw := u32_of_lt ((ceilDiv_le_self d.w (Nat.two_pow_pos level)).trans_lt h.w_lt)
  have hh := u32_of_lt ((ceilDiv_le_self d.h (Nat.two_pow_pos level)).trans_lt h.h_lt)
  have hnc := Nat.mod_eq_of_lt h.nc_lt
  obtain ⟨l, hok, ht⟩ := Formats.exists_tags (hw ▸ ceilDiv_pos d.w_pos (by positivity))
    (hh ▸ ceilDiv_pos d.h_pos (by positivity)) (hnc ▸ s.nc_pos) t
  exact ⟨l, hok, ht, ht.w.trans hw, ht.h.trans hh, ht.nc.trans hnc⟩

theorem reduceBytes_ends (h : Tagged s d) {level : ℕ} (hp : 0 < level) (hl : level ≤ 5)
    (hs : bytes.size = d.w * d.h * s.nc) :
    Ends (reduceBytes bytes level d s.nc)
      (fun nbuf => nbuf.size = (d.w ⌈/⌉ 2 ^ level) * (d.h ⌈/⌉ 2 ^ level) * s.nc) fun _ => False := by
  have hnc := h.nc_lt
  have hi : (⟨bytes.size, fun i => (bytes.get i).toBitVec⟩ : Buffer Width.byte.Sample).size = d.w * d.h * s.nc :=
    hs
  obtain ⟨reduced, hok, hr⟩ := doReduce_succ hp hl hi h.w_lt.le h.h_lt.le (by omega)
  rw [reduceBytes, hok, ends_ok]
  show reduced.outbuf.size = _
  rw [hr.size, hr.nnx, hr.nny]

theorem Tags.tileSize_eq (h : Tags s nnx nny t l) (hnc : l.nc = s.nc) :
    l.tileSize = s.width.bytes * (t.w * t.h * s.nc) := by
  rw [Formats.tileSize_eq h.tiled, h.width_eq, h.width, h.length, hnc]

theorem writeSubfile_ends (h : Tagged s d) {level : ℕ} (hl : level ≤ 5) (hs : bytes.size = d.w * d.h * s.nc) :
    Ends (writeSubfile s d bytes t level) (fun _ => True) fun _ => False := by
  obtain ⟨l, hok, ht, hw, hh, hnc⟩ := h.exists_tags t level
  rw [writeSubfile_eq (by omega), hok, ok_bind]
  have hn : Ends (if 0 < level then reduceBytes bytes level d s.nc else .ok bytes)
      (fun nbuf => nbuf.size = (d.w ⌈/⌉ 2 ^ level) * (d.h ⌈/⌉ 2 ^ level) * s.nc) fun _ => False := by
    split_ifs with hp
    · exact reduceBytes_ends h hp hl hs
    · obtain rfl : level = 0 := by omega
      simpa using hs
  refine hn.bind fun nbuf hn => ?_
  have htl : t.w * t.h * s.nc ≤ l.tileSize := by
    rw [ht.tileSize_eq hnc]
    exact Nat.le_mul_of_pos_left _ s.width.bytes_pos
  refine (writeTiles_keeps (by have := h.nc_lt; omega) hn.ge htl (P := fun _ => True) trivial
    fun _ _ => trivial).map fun _ _ => trivial

theorem writeSubfile_full (h : Tagged s d) (hb : s.width = .byte) (hs : bytes.size = d.w * d.h * s.nc)
    (hc : Cuts d.w t.w) (hr : Cuts d.h t.h) (htl : t.w * t.h * s.nc < 2 ^ 32) (hsm : d.w * d.h * s.nc < 2 ^ 32) :
    Ends (writeSubfile s d bytes t 0)
      (fun dir => Tags s d.w d.h t dir.layout ∧ dir.layout.dims.w = d.w ∧ dir.layout.dims.h = d.h ∧
        dir.layout.nc = s.nc ∧ Readable dir.layout t ∧ TilesHold bytes s.nc d.w d.h t dir.tiles)
      fun _ => False := by
  obtain ⟨l, hok, ht, hw, hh, hnc⟩ := h.exists_tags t 0
  have hts := ht.tileSize_eq hnc
  rw [hb] at hts
  simp only [Width.bytes, Nat.one_mul] at hts
  rw [writeSubfile_eq (Nat.zero_le 30), hok, ok_bind, if_neg (by omega), ok_bind]
  simp only [ceilDiv_two_pow_zero] at ht hw hh ⊢
  have hn32 : s.nc < 2 ^ 32 := by
    have := h.nc_lt
    omega
  have ha : t.w * t.h < 2 ^ 32 := (Nat.le_mul_of_pos_right _ s.nc_pos).trans_lt htl
  refine (writeTiles_ends hn32 hs.ge ht.width ht.length hw hh hts ha hc hr).map
    fun st hst => ⟨ht, hw, hh, hnc, ⟨ht.tiled, ht.width, ht.length, ?_, ?_, ?_, ?_⟩, hst⟩
  · rwa [hw]
  · rwa [hh]
  · rwa [hts]
  · rwa [hw, hh, hnc]

theorem levels_ends (h : Tagged s d) (hs : bytes.size = d.w * d.h * s.nc) (sides : ℕ → TileSides) (left reduce : ℕ)
    (hl : left + reduce ≤ 6) : Ends (levels s d bytes sides left reduce) (fun _ => True) fun _ => False := by
  induction left generalizing reduce with
  | zero => trivial
  | succ left ih =>
    rw [levels, levelSize_eq (by omega), ok_bind]
    split_ifs
    · trivial
    · refine (writeSubfile_ends h (by omega) hs).bind fun directory _ => ?_
      exact (ih (reduce + 1) (by omega)).map fun _ _ => trivial

end

/-- What a first level and its tiles need. -/
structure LevelSuits (s : TiffShape) (t : TileSides) : Prop where
  byte : s.width = .byte
  nx_gt : 32 < s.nx
  ny_gt : 32 < s.ny
  nc_lt : s.nc < 2 ^ 16
  columns : u32 (epsilonCeilDivision s.nx t.w) = s.nx ⌈/⌉ t.w
  rows : u32 (epsilonCeilDivision s.ny t.h) = s.ny ⌈/⌉ t.h
  tile : t.w * t.h * s.nc < 2 ^ 32
  samples : s.nx * s.ny * s.nc < 2 ^ 32

/-- And it is not `CIELAB`. -/
structure PyramidSuits (s : TiffShape) (t : TileSides) : Prop extends LevelSuits s t where
  cielab : s.cielab = false

theorem sides_le {w h nc : ℕ} (hw : 32 < w) (hh : 32 < h) (hnc : 0 < nc) (hs : w * h * nc < 2 ^ 32) :
    w ≤ 2 ^ 27 ∧ h ≤ 2 ^ 27 := by
  have ha : w * h < 2 ^ 32 := (Nat.le_mul_of_pos_right _ hnc).trans_lt hs
  have hc : w * 33 ≤ w * h := Nat.mul_le_mul_left _ hh
  have hr : 33 * h ≤ w * h := Nat.mul_le_mul_right _ hw
  omega

section
variable {img : TiffSource} {sides : ℕ → TileSides} {tiles : Tiles}

theorem sampleBytes_byte (hb : w = .byte) (samples : Buffer w.Sample) (i : ℕ) :
    (sampleBytes samples).get i = UInt8.ofNat (samples.get i).toNat := by
  subst hb
  simp [sampleBytes, element, Width.bytes, Nat.mod_one]

theorem levels_first (s : TiffShape) (d : Dims) (bytes : Buffer UInt8) (sides : ℕ → TileSides) :
    levels s d bytes sides 6 0 =
      if min d.w d.h ≤ 32 then .ok []
      else writeSubfile s d bytes (sides 0) 0 >>= fun first => (levels s d bytes sides 5 1).map (first :: ·) := by
  rw [levels, levelSize_eq (Nat.zero_le 30), ok_bind, ceilDiv_two_pow_zero, ceilDiv_two_pow_zero]

theorem level_comes_back (sides : ℕ → TileSides) {s : TiffShape} {d : Dims} (hw : d.w = s.nx) (hh : d.h = s.ny)
    (h : LevelSuits s (sides 0)) {samples : Buffer s.width.Sample} (hsz : samples.size = s.nx * s.ny * s.nc) :
    ∃ first rest, levels s d (sampleBytes samples) sides 6 0 = .ok (first :: rest) ∧
      ∃ out, readTiledData first.layout.width first.layout first.tiles first.layout.whole = .ok out ∧
        out.size = (sampleBytes samples).size ∧ ∀ i < out.size, out.get i = (sampleBytes samples).get i := by
  have hnx := h.nx_gt
  have hny := h.ny_gt
  obtain ⟨hwl, hhl⟩ := sides_le hnx hny s.nc_pos h.samples
  have ht : Tagged s d := ⟨by omega, by omega, h.nc_lt⟩
  have hb : (sampleBytes samples).size = d.w * d.h * s.nc := by
    rw [sampleBytes_size, hsz, h.byte, hw, hh]
    exact Nat.one_mul _
  obtain ⟨first, hf, htg, hfw, hfh, hfn, hr, htl⟩ := (writeSubfile_full ht h.byte hb
    (hw ▸ cuts_of_counted hwl (sides 0).w_pos (sides 0).w_lt h.columns)
    (hh ▸ cuts_of_counted hhl (sides 0).h_pos (sides 0).h_lt h.rows) h.tile
    (by rw [hw, hh]; exact h.samples)).exists_ok
  obtain ⟨rest, hrs, -⟩ := (levels_ends ht hb sides 5 1 (by norm_num)).exists_ok
  refine ⟨first, rest, ?_, ?_⟩
  · rw [levels_first, if_neg (by omega), hf, ok_bind, hrs]
    rfl
  · have hbp : first.layout.bps = 8 := by
      rw [htg.bps, TiffShape.bps, h.byte]
      rfl
    rw [← hfw, ← hfh, ← hfn] at htl
    obtain ⟨out, ho, hs, hg⟩ := reads_back hr hbp htl
    exact ⟨out, ho, by rw [hs, hb, hfw, hfh, hfn], hg⟩

theorem keeps_of_suits (h : PyramidSuits img.toTiffShape (sides 0)) : Keeps img sides := by
  have hp : 0 < img.nx ∧ 0 < img.ny := ⟨by have := h.nx_gt; omega, by have := h.ny_gt; omega⟩
  obtain ⟨first, rest, hl, ho⟩ := level_comes_back sides (d := ⟨img.nx, img.ny, hp.1, hp.2⟩) rfl rfl
    h.toLevelSuits img.size_eq
  refine ⟨first, rest, ?_, ho⟩
  rw [TiffSource.writePyramid, TiffSource.written, if_neg (by simp [h.cielab]), ok_bind, dif_pos hp, hl]

theorem exists_level {first : Directory} {rest : List Directory} (h : img.writePyramid sides = .ok (first :: rest)) :
    ∃ samples, img.written = .ok samples ∧ 32 < img.nx ∧ 32 < img.ny ∧
      Tags img.toTiffShape img.nx img.ny (sides 0) first.layout ∧
      ∃ st, writeTiles first.layout (sampleBytes samples) img.nc img.nx img.ny (sides 0) = .ok st ∧
        first.tiles = st.tiles := by
  obtain ⟨samples, hw, h⟩ := bind_eq_ok.1 h
  by_cases hp : 0 < img.nx ∧ 0 < img.ny
  swap
  · rw [dif_neg hp] at h
    cases h
  rw [dif_pos hp, levels_first] at h
  by_cases hs : min img.nx img.ny ≤ 32
  · rw [if_pos hs] at h
    cases h
  rw [if_neg hs] at h
  obtain ⟨dir, hd, h⟩ := bind_eq_ok.1 h
  obtain ⟨tail, -, ht⟩ := map_eq_ok.1 h
  obtain rfl : dir = first := (List.cons.inj ht).1
  rw [writeSubfile_eq (Nat.zero_le 30), ceilDiv_two_pow_zero, ceilDiv_two_pow_zero] at hd
  obtain ⟨layout, hl, hd⟩ := bind_eq_ok.1 hd
  rw [if_neg (by omega), ok_bind] at hd
  obtain ⟨st, hst, rfl⟩ := map_eq_ok.1 hd
  rw [not_le, lt_min_iff] at hs
  exact ⟨samples, hw, hs.1, hs.2, tags_of_ok hl, st, hst, rfl⟩

theorem tagged_of_size {s : TiffShape} {out : Buffer UInt8} {samples : Buffer s.width.Sample}
    (ht : Tags s s.nx s.ny (sides 0) l) (hnx : 0 < s.nx) (hny : 0 < s.ny)
    (hs : samples.size = s.nx * s.ny * s.nc) (hr : readTiledData l.width l tiles l.whole = .ok out)
    (hsz : out.size = (sampleBytes samples).size) :
    s.nx * s.ny * s.nc < 2 ^ 32 ∧ s.nc < 2 ^ 16 ∧ l.dims.w = s.nx ∧ l.dims.h = s.ny ∧ l.nc = s.nc := by
  have hc : u32 (l.dims.w * l.dims.h * l.nc) = s.nx * s.ny * s.nc := by
    have hr := (readTiledData_size _ _).of_ok hr
    rw [hsz, sampleBytes_size, hs, ht.width_eq] at hr
    exact (Nat.eq_of_mul_eq_mul_left s.width.bytes_pos hr).symm
  have hlt : s.nx * s.ny * s.nc < 2 ^ 32 := hc ▸ Nat.mod_lt _ (by norm_num)
  have ha : s.nx * s.ny < 2 ^ 32 := (Nat.le_mul_of_pos_right _ s.nc_pos).trans_lt hlt
  have hw : l.dims.w = s.nx := ht.w.trans (u32_of_lt ((Nat.le_mul_of_pos_right _ hny).trans_lt ha))
  have hh : l.dims.h = s.ny := ht.h.trans (u32_of_lt ((Nat.le_mul_of_pos_left _ hnx).trans_lt ha))
  have hnc : s.nc < 2 ^ 16 := by
    have hle : s.nx * s.ny * s.nc ≤ s.nx * s.ny * (s.nc % 2 ^ 16) := by
      rw [hw, hh, ht.nc] at hc
      exact hc.ge.trans (Nat.mod_le _ _)
    exact (Nat.le_of_mul_le_mul_left hle (Nat.mul_pos hnx hny)).trans_lt (Nat.mod_lt _ (by norm_num))
  exact ⟨hlt, hnc, hw, hh, ht.nc.trans (Nat.mod_eq_of_lt hnc)⟩

end

section
variable {l : Layout} {tiles : Tiles} {w : Width} {roi : Rect} {out : Buffer UInt8}

theorem countFits_of_ok (h : Tiled l) (hr : readTiledData w l tiles roi = .ok out) : l.CountFits := by
  have hw := h.width
  have hl := h.length
  by_contra hc
  rw [readTiledData, if_neg (by omega), if_pos hc] at hr
  cases hr

theorem exists_tile_of_ok (h : Tiled l) (hr : readTiledData w l tiles roi = .ok out) (tx ty : ℕ)
    (hl : l.startX roi ≤ tx) (hx : tx < l.endX roi) (hly : l.startY roi ≤ ty) (hy : ty < l.endY roi) :
    ∃ tile, readTile w l tiles tx ty = .ok tile := by
  rw [readTiledData_eq h (countFits_of_ok h hr)] at hr
  cases he : readTile w l tiles tx ty with
  | ok tile => exact ⟨tile, rfl⟩
  | error e =>
    refine ((forRange_fails hly (by omega) (fun buf => ?_) _).of_ok hr).elim
    refine forRange_fails hl (by omega) (fun buf => ?_) _
    rw [he]
    trivial

theorem readTile_inside {tx ty : ℕ} {tile : Buffer UInt8} (h : readTile w l tiles tx ty = .ok tile) :
    u32 (tx * l.tileWidth) < l.dims.w ∧ u32 (ty * l.tileLength) < l.dims.h ∧ ¬ tileBlock w l < l.tileSize ∧
      ∃ i j, tiles i j = some tile.get := by
  simp only [readTile] at h
  by_cases ho : l.dims.w ≤ u32 (tx * l.tileWidth) ∨ l.dims.h ≤ u32 (ty * l.tileLength)
  · rw [if_pos ho] at h
    cases h
  rw [if_neg ho] at h
  cases ht : tiles (u32 (tx * l.tileWidth) / l.tileWidth) (u32 (ty * l.tileLength) / l.tileLength) with
  | none =>
    rw [ht] at h
    cases h
  | some bytes =>
    simp only [ht] at h
    split_ifs at h with hb
    cases h
    exact ⟨by omega, by omega, hb, _, _, ht⟩

theorem readTiledData_keeps (h : Tiled l) {P : UInt8 → Prop} (hz : P 0)
    (ht : ∀ i j bytes, tiles i j = some bytes → ∀ r, P (bytes r))
    (hr : readTiledData w l tiles roi = .ok out) (p : ℕ) : P (out.get p) := by
  rw [readTiledData_eq h (countFits_of_ok h hr)] at hr
  refine (forRange_ends (E := fun _ => True) (fun _ (buf : Buffer UInt8) => ∀ p, P (buf.get p)) (fun _ => hz)
    fun ty buf _ _ hbf => ?_).of_ok hr p
  refine forRange_ends (fun _ (buf : Buffer UInt8) => ∀ p, P (buf.get p)) hbf fun tx buf _ _ hbf => ?_
  cases htl : readTile w l tiles tx ty with
  | error e => trivial
  | ok tile =>
    obtain ⟨-, -, -, i, j, hb⟩ := readTile_inside htl
    refine forCount_ends (fun _ (buf : Buffer UInt8) => ∀ p, P (buf.get p)) hbf fun tileX buf _ hbf => ?_
    refine forCount_ends (fun _ (buf : Buffer UInt8) => ∀ p, P (buf.get p)) hbf fun tileY buf _ hbf => ?_
    dsimp only
    split_ifs
    · refine forCount_ends (fun _ (buf : Buffer UInt8) => ∀ p, P (buf.get p)) hbf fun c buf _ hbf => ?_
      refine Buffer.copy_ends (fun _ p => ?_) fun _ => trivial
      simp only [Buffer.blit]
      split_ifs
      · exact ht i j _ hb _
      · exact hbf p
    · exact hbf

theorem ends_pos_of_ne_zero (h : Tiled l) (hr : readTiledData w l tiles roi = .ok out) {p : ℕ}
    (hne : out.get p ≠ 0) : l.startX roi < l.endX roi ∧ l.startY roi < l.endY roi := by
  rw [readTiledData_eq h (countFits_of_ok h hr)] at hr
  by_contra hn
  refine hne ((forRange_ends (E := fun _ => True) (fun _ (buf : Buffer UInt8) => ∀ p, buf.get p = 0) (fun _ => rfl)
    fun ty buf hlo hhi hb => ?_).of_ok hr p)
  rw [show l.endX roi - l.startX roi = 0 by omega]
  exact hb

theorem eq_of_mul_eq {a a' b b' : ℕ} (ha : a ≤ a') (hb : b ≤ b') (hp : 0 < b) (hp' : 0 < a)
    (h : a * b = a' * b') : a = a' ∧ b = b' := by
  constructor
  · by_contra hne
    have := Nat.mul_lt_mul_of_lt_of_le (lt_of_le_of_ne ha hne) hb (hp.trans_le hb)
    omega
  · by_contra hne
    have := Nat.mul_lt_mul_of_le_of_lt ha (lt_of_le_of_ne hb hne) (hp'.trans_le ha)
    omega

theorem counted_of_read (h : Tiled l) (hwd : l.tileWidth = t.w) (hl : l.tileLength = t.h)
    (hw : 32 < l.dims.w) (hh : 32 < l.dims.h) (hs : l.dims.w * l.dims.h * l.nc < 2 ^ 32)
    (hr : readTiledData l.width l tiles l.whole = .ok out) {p : ℕ} (hne : out.get p ≠ 0) :
    u32 (epsilonCeilDivision l.dims.w t.w) = l.dims.w ⌈/⌉ t.w ∧
      u32 (epsilonCeilDivision l.dims.h t.h) = l.dims.h ⌈/⌉ t.h ∧ l.tileSize < 2 ^ 32 := by
  obtain ⟨hwl, hhl⟩ := sides_le hw hh l.nc_pos hs
  obtain ⟨hlt, hcn⟩ := numberOfTiles_eq h hs
  have hf := countFits_of_ok h hr
  obtain ⟨hp, hpy⟩ := ends_pos_of_ne_zero h hr hne
  obtain ⟨tile, ht⟩ := exists_tile_of_ok h hr (l.endX l.whole - 1) (l.endY l.whole - 1)
    (by omega) (by omega) (by omega) (by omega)
  obtain ⟨hx, hy, hb, -⟩ := readTile_inside ht
  rw [startX_whole, endX_whole, hwd] at hp
  rw [startY_whole, endY_whole, hl] at hpy
  rw [endX_whole, hwd] at hx
  rw [endY_whole, hl] at hy
  have hc := counted_le hwl t.w_pos t.w_lt hx
  have hrw := counted_le hhl t.h_pos t.h_lt hy
  rw [Layout.CountFits, hcn, hwd, hl, u32_of_lt] at hf
  · obtain ⟨hX, hY⟩ := eq_of_mul_eq hc hrw hpy hp hf.symm
    refine ⟨hX, hY, ?_⟩
    by_contra hlr
    exact hb (tileBlock_lt h (not_lt.1 hlr))
  · rw [hwd, hl] at hlt
    exact (Nat.mul_le_mul hc hrw).trans_lt hlt

end

section
variable {img : TiffSource} {sides : ℕ → TileSides}

theorem levelSuits_of_keeps (img : TiffSource) (hb : img.width = .byte)
    (hf : (sampleBytes img.pixels).get 0 ≠ 0) (h : Keeps img sides) : LevelSuits img.toTiffShape (sides 0) := by
  obtain ⟨first, rest, hp, out, hr, hsz, hg⟩ := h
  obtain ⟨samples, -, hnx, hny, ht, -⟩ := exists_level hp
  obtain ⟨hs, hnc, hw, hh, hfn⟩ := tagged_of_size ht (by omega) (by omega) img.size_eq hr hsz
  have hps : 0 < out.size := by
    rw [hsz, sampleBytes_size, img.size_eq]
    exact Nat.mul_pos img.width.bytes_pos (Nat.mul_pos (Nat.mul_pos (by omega) (by omega)) img.nc_pos)
  obtain ⟨hc, hrw, htl⟩ := counted_of_read (t := sides 0) ht.tiled ht.width ht.length
    (by rwa [hw]) (by rwa [hh]) (by rwa [hw, hh, hfn]) hr (by rwa [hg 0 hps])
  rw [hw] at hc
  rw [hh] at hrw
  rw [ht.tileSize_eq hfn, hb] at htl
  exact ⟨hb, hnx, hny, hnc, hc, hrw, (Nat.one_mul _).symm.trans_lt htl, hs⟩

theorem eq_of_byte_eq (hby : w = .byte) {a b : w.Sample}
    (h : UInt8.ofNat a.toNat = UInt8.ofNat b.toNat) : a = b := by
  subst hby
  have ha : a.toNat < 2 ^ 8 := a.isLt
  have hb : b.toNat < 2 ^ 8 := b.isLt
  have hn := congrArg UInt8.toNat h
  rw [UInt8.toNat_ofNat', UInt8.toNat_ofNat', Nat.mod_eq_of_lt ha, Nat.mod_eq_of_lt hb] at hn
  exact BitVec.eq_of_toNat_eq hn

theorem sub_half_ne (v : w.Sample) : v - half w ≠ v := by
  have hh : half w ≠ 0 := by cases w <;> decide
  intro h
  exact hh (by simpa using h)

theorem not_keeps_of_lab (img : TiffSource) (hlb : img.cielab = true)
    (hs : LevelSuits img.toTiffShape (sides 0)) : ¬ Keeps img sides := by
  rintro ⟨first, rest, hp, out, hr, hsz, hg⟩
  have hnx := hs.nx_gt
  have hny := hs.ny_gt
  have hps : 0 < img.nx ∧ 0 < img.ny := ⟨by omega, by omega⟩
  obtain ⟨samples, hw, hl⟩ := bind_eq_ok.1 hp
  rw [dif_pos hps] at hl
  have hc := (written_of_lab hlb (Nat.mul_pos hps.1 hps.2)).of_ok hw
  obtain ⟨first', rest', hl', out', hr', hs', hg'⟩ := level_comes_back sides
    (d := ⟨img.nx, img.ny, hps.1, hps.2⟩) rfl rfl hs (((written_ends img).of_ok hw).1.trans img.size_eq)
  rw [hl'] at hl
  obtain rfl : first' = first := (List.cons.inj (Except.ok.inj hl)).1
  obtain rfl : out' = out := Except.ok.inj (hr'.symm.trans hr)
  have hlt : 1 < out'.size := by
    rw [hsz, sampleBytes_size, img.size_eq, hs.byte]
    calc 1 < 33 * 33 * 1 := by norm_num
      _ ≤ img.nx * img.ny * img.nc := Nat.mul_le_mul (Nat.mul_le_mul hnx hny) img.nc_pos
      _ = 1 * (img.nx * img.ny * img.nc) := (Nat.one_mul _).symm
  -- the second byte is not the one that was written
  have hsm := (hg' 1 hlt).symm.trans (hg 1 hlt)
  rw [sampleBytes_byte hs.byte, sampleBytes_byte hs.byte, hc] at hsm
  exact sub_half_ne _ (eq_of_byte_eq hs.byte hsm)

theorem byte_ne_two (hw : w = .word) {v v' : w.Sample} (hv : v = 0 ∨ v = 1)
    (hv' : v' = v ∨ v' = v - half w) {b : ℕ} (hb : b < w.bytes) : (element w v'.toNat).get b ≠ 2 := by
  subst hw
  have hc : b = 0 ∨ b = 1 := by
    have : b < 2 := hb
    omega
  rcases hc with rfl | rfl <;> rcases hv with rfl | rfl <;> rcases hv' with rfl | rfl <;> decide

theorem not_keeps_word (img : TiffSource) (hwr : img.width = .word)
    (hsm : ∀ p, p + 1 < img.nx * img.ny * img.nc → img.pixels.get p = 0 ∨ img.pixels.get p = 1)
    (hl : img.pixels.get (img.nx * img.ny * img.nc - 1) = 2) : ¬ Keeps img sides := by
  rintro ⟨first, rest, hp, out, hr, hs, hg⟩
  obtain ⟨samples, hw, hnx, hny, ht, st, hst, htl⟩ := exists_level hp
  obtain ⟨hsa, hnc, -, -, hf⟩ := tagged_of_size ht (by omega) (by omega) img.size_eq hr hs
  obtain ⟨hws, hwv⟩ := (written_ends img).of_ok hw
  have hb : img.width.bytes = 2 := by rw [hwr]; rfl
  have hm : 33 * 33 * 1 ≤ img.nx * img.ny * img.nc := Nat.mul_le_mul (Nat.mul_le_mul hnx hny) img.nc_pos
  -- no byte of the tiles is two
  have hsr : ∀ i < img.nx * img.ny * img.nc, (sampleBytes samples).get i ≠ 2 := by
    intro i hi
    have hh : i / img.width.bytes + 1 < img.nx * img.ny * img.nc := by
      rw [hb]
      omega
    exact byte_ne_two hwr (hsm _ hh) (hwv _) (Nat.mod_lt _ img.width.bytes_pos)
  have hrm : img.nx * img.ny * img.nc ≤ (sampleBytes samples).size := by
    rw [sampleBytes_size, hws, img.size_eq]
    exact Nat.le_mul_of_pos_left _ img.width.bytes_pos
  have hti : (sides 0).w * (sides 0).h * img.nc ≤ first.layout.tileSize := by
    rw [ht.tileSize_eq hf]
    exact Nat.le_mul_of_pos_left _ img.width.bytes_pos
  have hk := (writeTiles_keeps (by omega) hrm hti (P := (· ≠ 2)) (by decide) hsr).of_ok hst
  rw [← htl] at hk
  -- the low byte of the last sample is
  have hpl : img.width.bytes * (img.nx * img.ny * img.nc - 1) < out.size := by
    rw [hs, sampleBytes_size, img.size_eq]
    exact Nat.mul_lt_mul_of_pos_left (by omega) img.width.bytes_pos
  refine readTiledData_keeps ht.tiled (P := (· ≠ 2)) (by decide) hk hr _ ((hg _ hpl).trans ?_)
  show (element img.width (img.pixels.get (img.width.bytes * _ / img.width.bytes)).toNat).get _ = 2
  rw [Nat.mul_div_cancel_left _ img.width.bytes_pos, Nat.mul_mod_right, hl]
  generalize img.width = w
  cases w <;> decide

end

/-! ### The theorem -/

section
variable {s : TiffShape} {sides : ℕ → TileSides}

/-- An image with these samples. -/
def TiffShape.image (s : TiffShape) (sample : ℕ → s.width.Sample) : TiffSource :=
  ⟨s, ⟨s.nx * s.ny * s.nc, sample⟩, rfl⟩

theorem not_its1Bit {sample : ℕ → s.width.Sample} (ho : sample 0 = 1) (hp : 0 < s.nx * s.ny) :
    (s.image sample).its1Bit = false := by
  refine Bool.eq_false_iff.2 fun h => ?_
  have he : sample 0 = 0 ∨ sample 0 = BitVec.allOnes _ := ((TiffSource.its1Bit_iff _).1 h).2 0 hp
  rw [ho] at he
  generalize s.width = w at he
  cases w <;> exact absurd he (by decide)

/-- A one first, a two last, zeros between. -/
def oneAndTwo (s : TiffShape) (p : ℕ) : s.width.Sample :=
  if p = 0 then 1 else if p + 1 < s.nx * s.ny * s.nc then 0 else 2

theorem suits_of_ones (hb : s.width = .byte) (h : Keeps (s.image fun _ => 1) sides) : PyramidSuits s (sides 0) := by
  have hf : (sampleBytes (s.image fun _ => 1).pixels).get 0 ≠ 0 := by
    rw [sampleBytes_byte (w := (s.image fun _ => 1).width) hb]
    show UInt8.ofNat (1 : s.width.Sample).toNat ≠ 0
    generalize s.width = w
    cases w <;> decide
  have hl : LevelSuits s (sides 0) := levelSuits_of_keeps (s.image fun _ => 1) hb hf h
  refine ⟨hl, Bool.eq_false_iff.2 fun hlb => ?_⟩
  exact not_keeps_of_lab (s.image fun _ => 1) hlb hl h

theorem not_keeps_oneAndTwo (hw : s.width = .word) : ¬ Keeps (s.image (oneAndTwo s)) sides := by
  intro h
  obtain ⟨first, rest, hpy, -⟩ := id h
  obtain ⟨samples, -, hnx, hny, -⟩ := exists_level hpy
  have hm : 33 * 33 * 1 ≤ s.nx * s.ny * s.nc := Nat.mul_le_mul (Nat.mul_le_mul hnx hny) s.nc_pos
  refine not_keeps_word (s.image (oneAndTwo s)) hw (fun p hp => ?_) ?_ h
  · have hb : p + 1 < s.nx * s.ny * s.nc := hp
    show oneAndTwo s p = 0 ∨ oneAndTwo s p = 1
    rw [oneAndTwo, if_pos hb]
    split_ifs
    · exact .inr rfl
    · exact .inl rfl
  · show oneAndTwo s (s.nx * s.ny * s.nc - 1) = 2
    rw [oneAndTwo, if_neg (by omega), if_neg (by omega)]

/-- **When a pyramid keeps the picture**, whatever its samples are, unless it is written as bilevel: exactly if it
is not `CIELAB`, has samples of eight bits and more than 32 columns and rows, and no number in it is too large. -/
theorem pyramid_keeps_iff (s : TiffShape) (hnx : 0 < s.nx) (hny : 0 < s.ny) (sides : ℕ → TileSides) :
    (∀ img : TiffSource, img.toTiffShape = s → img.its1Bit = false → Keeps img sides) ↔ PyramidSuits s (sides 0) := by
  have hp := Nat.mul_pos hnx hny
  constructor
  · intro h
    cases hw : s.width with
    | byte => exact suits_of_ones hw (h _ rfl (not_its1Bit rfl hp))
    | word => exact absurd (h _ rfl (not_its1Bit rfl hp)) (not_keeps_oneAndTwo hw)
  · rintro h img rfl -
    exact keeps_of_suits h

end

/-- A color image of 40 by 36 pixels. -/
def smallPhoto : TiffShape where
  nx := 40
  ny := 36
  nc := 3
  nc_pos := Nat.le_add_left 1 2
  photo := .other
  width := .byte

theorem smallPhoto_is_kept : 0 < smallPhoto.nx ∧ 0 < smallPhoto.ny ∧
    ∀ img : TiffSource, img.toTiffShape = smallPhoto → img.its1Bit = false →
      Keeps img fun _ => { w := 32, h := 16 } := by
  refine ⟨by decide, by decide, (pyramid_keeps_iff smallPhoto (by decide) (by decide) _).2
    ⟨⟨rfl, by decide, by decide, by decide, ?_, ?_, by decide, by decide⟩, rfl⟩⟩
  · decide +kernel
  · decide +kernel

/-- The same with samples of sixteen bits. -/
def deepPhoto : TiffShape := { smallPhoto with width := .word }

/-- An icon of 32 by 32 pixels. -/
def icon : TiffShape := { smallPhoto with nx := 32, ny := 32 }

theorem deep_pyramid_is_lost :
    ((deepPhoto.image (oneAndTwo deepPhoto)).its1Bit = false ∧
      ¬ Keeps (deepPhoto.image (oneAndTwo deepPhoto)) fun _ => { w := 32, h := 16 }) ∧
    ((icon.image fun _ => 1).its1Bit = false ∧
      (icon.image fun _ => 1).writePyramid (fun _ => { w := 32, h := 16 }) = .ok []) := by
  refine ⟨⟨not_its1Bit rfl (by decide), not_keeps_oneAndTwo rfl⟩, not_its1Bit rfl (by decide), ?_⟩
  rfl

end Sipi.Formats
