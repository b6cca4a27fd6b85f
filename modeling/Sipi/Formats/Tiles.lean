import Sipi.Formats.ScanRegion
import Sipi.Geometry.Rotation

/-!
# Reading a TIFF by tiles

`read_tiled_data<T>` of `formats/SipiIOTiff.cpp` reads the tiles that a region touches and copies their pixels to a
block.

## Honest scope

The difference of a quotient and its floor is exact in single precision.
-/

namespace Sipi.Formats

open Sipi.Theory Sipi.Geometry

/-- A quotient in single precision. -/
def floatDiv (a b : ℕ) : ℚ := single.round (single.round a / single.round b)

/-- `static const float epsilon = 1.0e-4`. -/
def epsilon : ℚ := single.round (1 / 10000)

/-- `epsilon_ceil_division`. -/
def epsilonCeilDivision (a b : ℕ) : ℕ :=
  if |⌊floatDiv a b⌋ - floatDiv a b| < epsilon then ⌊floatDiv a b⌋₊ else ⌈floatDiv a b⌉₊

/-- `epsilon_floor_division`. -/
def epsilonFloorDivision (a b : ℕ) : ℕ :=
  if |⌈floatDiv a b⌉ - floatDiv a b| < epsilon then ⌈floatDiv a b⌉₊ else ⌊floatDiv a b⌋₊

/-! ### Tiles -/

/-- The bytes of the tile at `i` and `j`. -/
abbrev Tiles := ℕ → ℕ → Option (ℕ → UInt8)

namespace Layout

/-- The first column of tiles that a region touches. -/
def startX (l : Layout) (roi : Rect) : ℕ := u32 (epsilonFloorDivision roi.x l.tileWidth)

/-- The first row of tiles. -/
def startY (l : Layout) (roi : Rect) : ℕ := u32 (epsilonFloorDivision roi.y l.tileLength)

/-- The column of tiles after the last. -/
def endX (l : Layout) (roi : Rect) : ℕ := u32 (epsilonCeilDivision (u32 (roi.x + roi.dims.w)) l.tileWidth)

/-- The row of tiles after the last. -/
def endY (l : Layout) (roi : Rect) : ℕ := u32 (epsilonCeilDivision (u32 (roi.y + roi.dims.h)) l.tileLength)

/-- There are as many tiles as the sides give. -/
def CountFits (l : Layout) : Prop :=
  l.numberOfTiles =
    u32 (u32 (epsilonCeilDivision l.dims.w l.tileWidth) * u32 (epsilonCeilDivision l.dims.h l.tileLength))

instance (l : Layout) : Decidable l.CountFits := inferInstanceAs (Decidable (_ = _))

end Layout

/-- The bytes of the block a tile is read into. -/
def tileBlock (w : Width) (l : Layout) : ℕ := w.bytes * if l.bps = 8 then u32 l.tileSize else u32 l.tileSize / 2

/-- `TIFFReadTile`, at `x` and `y`. -/
def readTile (w : Width) (l : Layout) (tiles : Tiles) (tx ty : ℕ) : Except Failure (Buffer UInt8) :=
  let x := u32 (tx * l.tileWidth)
  let y := u32 (ty * l.tileLength)
  if l.dims.w ≤ x ∨ l.dims.h ≤ y then .error (.thrown (.tile tx ty))
  else
    match tiles (x / l.tileWidth) (y / l.tileLength) with
    | none => .error (.thrown (.tile tx ty))
    | some bytes => if tileBlock w l < l.tileSize then .error .overrun else .ok ⟨tileBlock w l, bytes⟩

/-- A tile is copied to the block. -/
def placeTile (w : Width) (l : Layout) (roi : Rect) (dx dy : ℕ) (tile : Buffer UInt8) :
    Buffer UInt8 → Except Failure (Buffer UInt8) :=
  forRange (fun tileX => forRange (fun tileY buf =>
    let finalX := u32 (dx * l.tileWidth + tileX)
    let finalY := u32 (dy * l.tileLength + tileY)
    if finalX < roi.dims.w ∧ finalY < roi.dims.h then
      forRange (fun c buf =>
        buf.copy .overrun (w.bytes * u32 (l.nc * (finalY * roi.dims.w + finalX) + c)) tile
          (w.bytes * u32 ((tileX + tileY * l.tileWidth) * l.nc + c)) w.bytes) l.nc 0 buf
    else .ok buf) l.tileLength 0) l.tileWidth 0

/-- The planes of a tile are interleaved. -/
def contigTile (w : Width) (l : Layout) (tile : Buffer UInt8) : Except Failure (Buffer UInt8) :=
  match l.planar with
  | .contig => .ok tile
  | .separate => separateToContig w tile l.tileWidth l.tileLength l.nc l.tileWidth

/-- `read_tiled_data`. -/
def readTiledData (w : Width) (l : Layout) (tiles : Tiles) (roi : Rect) : Except Failure (Buffer UInt8) :=
  if l.tileWidth = 0 ∨ l.tileLength = 0 then .error (.thrown .noTileSides)
  else if ¬ l.CountFits then .error (.thrown .tileCount)
  else if l.bps ≠ 8 ∧ l.bps ≠ 16 then .error (.thrown (.tileBits l.bps))
  else
    forRange (fun ty => forRange (fun tx buf => do
      let tile ← readTile w l tiles tx ty
      let tile ← contigTile w l tile
      placeTile w l roi (tx - l.startX roi) (ty - l.startY roi) tile buf)
      (l.endX roi - l.startX roi) (l.startX roi)) (l.endY roi - l.startY roi) (l.startY roi)
      (.const (w.bytes * u32 (roi.dims.w * roi.dims.h * l.nc)) 0)

/-- The samples of `P` are there, the others as before. -/
structure Filled (w : Width) (l : Layout) (roi : Rect) (before : Buffer UInt8) (source : ℕ → ℕ → ℕ → ℕ → UInt8)
    (P : ℕ → ℕ → ℕ → Prop) (buf : Buffer UInt8) : Prop where
  size : buf.size = w.bytes * (roi.dims.w * roi.dims.h * l.nc)
  get : ∀ x < roi.dims.w, ∀ y < roi.dims.h, ∀ c < l.nc, ∀ b < w.bytes,
    (P x y c → buf.get (w.bytes * index roi.dims.w l.nc x y c + b) = source x y c b) ∧
    (¬ P x y c → buf.get (w.bytes * index roi.dims.w l.nc x y c + b) =
      before.get (w.bytes * index roi.dims.w l.nc x y c + b))

variable {tileX tileY dx dy : ℕ}

section
variable {w : Width} {l : Layout} {roi : Rect} {source : ℕ → ℕ → ℕ → ℕ → UInt8} {P Q : ℕ → ℕ → ℕ → Prop}
  {before buf tile : Buffer UInt8}

theorem Filled.congr (h : Filled w l roi before source P buf)
    (hPQ : ∀ x < roi.dims.w, ∀ y < roi.dims.h, ∀ c < l.nc, Q x y c ↔ P x y c) : Filled w l roi before source Q buf :=
  ⟨h.size, fun x hx y hy c hc b hb => by rw [hPQ x hx y hy c hc]; exact h.get x hx y hy c hc b hb⟩

theorem Filled.blit (h : Filled w l roi before source P buf) {x y c s : ℕ} (hx : x < roi.dims.w) (hc : c < l.nc)
    (ht : ∀ b < w.bytes, tile.get (s + b) = source x y c b)
    (hQ : ∀ x' < roi.dims.w, ∀ y' < roi.dims.h, ∀ c' < l.nc, Q x' y' c' ↔ P x' y' c' ∨ (x' = x ∧ y' = y ∧ c' = c)) :
    Filled w l roi before source Q (buf.blit (w.bytes * index roi.dims.w l.nc x y c) tile s w.bytes) where
  size := h.size
  get x' hx' y' hy' c' hc' b hb := by
    rw [hQ x' hx' y' hy' c' hc']
    by_cases heq : index roi.dims.w l.nc x' y' c' = index roi.dims.w l.nc x y c
    · obtain ⟨rfl, rfl, rfl⟩ := index_inj hx' hc' hx hc heq
      rw [Buffer.get_blit_of_lt _ _ _ _ hb]
      exact ⟨fun _ => ht b hb, fun hn => absurd (.inr ⟨rfl, rfl, rfl⟩) hn⟩
    · have hne : ¬ (x' = x ∧ y' = y ∧ c' = c) := by
        rintro ⟨rfl, rfl, rfl⟩
        exact heq rfl
      rw [Buffer.get_blit_of_ne _ _ _ heq hb, or_iff_left hne]
      exact h.get x' hx' y' hy' c' hc' b hb

/-- No 32-bit number overflows for a tile. -/
structure PlaceFits (l : Layout) (roi : Rect) (dx dy : ℕ) : Prop where
  columns : (dx + 1) * l.tileWidth ≤ 2 ^ 32
  rows : (dy + 1) * l.tileLength ≤ 2 ^ 32
  samples : roi.dims.w * roi.dims.h * l.nc < 2 ^ 32
  tile : l.tileWidth * l.tileLength * l.nc ≤ 2 ^ 32

theorem placePixel_ends {finalX finalY : ℕ} (hx : finalX < roi.dims.w) (hy : finalY < roi.dims.h)
    (ht : tileX < l.tileWidth) (hty : tileY < l.tileLength)
    (hs : roi.dims.w * roi.dims.h * l.nc < 2 ^ 32) (ha : l.tileWidth * l.tileLength * l.nc ≤ 2 ^ 32)
    (h : Filled w l roi before source P buf) (htl : ∀ c < l.nc, ∀ b < w.bytes,
      tile.get (w.bytes * ((tileX + tileY * l.tileWidth) * l.nc + c) + b) = source finalX finalY c b) :
    Ends (forRange (fun c buf =>
        buf.copy Failure.overrun (w.bytes * u32 (l.nc * (finalY * roi.dims.w + finalX) + c)) tile
          (w.bytes * u32 ((tileX + tileY * l.tileWidth) * l.nc + c)) w.bytes) l.nc 0 buf)
      (Filled w l roi before source fun x y c => P x y c ∨ (x = finalX ∧ y = finalY)) fun _ => False := by
  refine (forCount_ends (fun k => Filled w l roi before source fun x y c =>
    P x y c ∨ (x = finalX ∧ y = finalY ∧ c < k)) (h.congr ?_) ?_).imp fun out ho => ho.congr ?_
  · intro x _ y _ c _
    simp
  · intro c buf hc hb
    have hd := index_lt hx hy hc
    have hr : w.bytes * index roi.dims.w l.nc finalX finalY c + w.bytes ≤ buf.size := by
      rw [hb.size, ← Nat.mul_succ]
      exact Nat.mul_le_mul_left _ hd
    have hsr : (tileX + tileY * l.tileWidth) * l.nc + c < 2 ^ 32 := by
      refine lt_of_lt_of_le ?_ ha
      calc (tileX + tileY * l.tileWidth) * l.nc + c = index l.tileWidth l.nc tileX tileY c := by
            simp only [index]; ring
        _ < l.tileWidth * l.tileLength * l.nc := index_lt ht hty hc
    have hp : u32 (l.nc * (finalY * roi.dims.w + finalX) + c) = index roi.dims.w l.nc finalX finalY c :=
      u32_of_lt (hd.trans hs)
    rw [hp, u32_of_lt hsr, Buffer.copy_of_le _ hr]
    refine hb.blit hx hc (htl c hc) ?_
    intro x' _ y' _ c' _
    rw [Nat.lt_succ_iff_lt_or_eq]
    grind
  · intro x _ y _ c hc
    simp only [hc, and_true]

theorem placeTile_ends (hw : 0 < l.tileWidth) (hl : 0 < l.tileLength)
    (hf : PlaceFits l roi dx dy) (h : Filled w l roi before source P buf)
    (htl : ∀ tileX < l.tileWidth, ∀ tileY < l.tileLength, ∀ c < l.nc, ∀ b < w.bytes,
      tile.get (w.bytes * ((tileX + tileY * l.tileWidth) * l.nc + c) + b) =
        source (dx * l.tileWidth + tileX) (dy * l.tileLength + tileY) c b) :
    Ends (placeTile w l roi dx dy tile buf)
      (Filled w l roi before source fun x y c => P x y c ∨ (x / l.tileWidth = dx ∧ y / l.tileLength = dy))
      fun _ => False := by
  refine (forCount_ends (fun tileX => Filled w l roi before source fun x y c =>
    P x y c ∨ (x / l.tileWidth = dx ∧ y / l.tileLength = dy ∧ x % l.tileWidth < tileX)) (h.congr ?_) ?_).imp
    fun out ho => ho.congr ?_
  · intro x _ y _ c _
    simp
  · intro tileX buf ht hb
    refine (forCount_ends (fun tileY => Filled w l roi before source fun x y c =>
      P x y c ∨ (x / l.tileWidth = dx ∧ y / l.tileLength = dy ∧
        (x % l.tileWidth < tileX ∨ (x % l.tileWidth = tileX ∧ y % l.tileLength < tileY)))) (hb.congr ?_) ?_).imp
      fun out ho => ho.congr ?_
    · intro x _ y _ c _
      simp
    · intro tileY buf hty hb
      have hx : dx * l.tileWidth + tileX < 2 ^ 32 := by
        have := hf.columns
        rw [Nat.add_mul] at this
        omega
      have hy : dy * l.tileLength + tileY < 2 ^ 32 := by
        have := hf.rows
        rw [Nat.add_mul] at this
        omega
      simp only [u32_of_lt hx, u32_of_lt hy]
      split_ifs with hin
      · refine (placePixel_ends hin.1 hin.2 ht hty hf.samples hf.tile hb
          (htl tileX ht tileY hty)).imp fun out ho => ho.congr ?_
        intro x _ y _ c _
        rw [eq_iff_div_mod ht, eq_iff_div_mod hty, Nat.lt_succ_iff_lt_or_eq]
        grind
      · refine hb.congr fun x' hx' y' hy' c' _ => ?_
        -- a pixel beyond the region is not one of its samples
        have hn : ¬ ((x' / l.tileWidth = dx ∧ x' % l.tileWidth = tileX) ∧
            (y' / l.tileLength = dy ∧ y' % l.tileLength = tileY)) := by
          rw [← eq_iff_div_mod ht, ← eq_iff_div_mod hty]
          rintro ⟨rfl, rfl⟩
          exact hin ⟨hx', hy'⟩
        rw [Nat.lt_succ_iff_lt_or_eq]
        grind
    · intro x _ y _ c _
      simp only [Nat.mod_lt y hl, and_true, Nat.lt_succ_iff_lt_or_eq]
  · intro x _ y _ c _
    simp only [Nat.mod_lt x hw, and_true]

end

/-! ### All tiles -/

/-- Contiguous tiles of eight or sixteen bits. -/
structure Tiled (l : Layout) : Prop where
  planar : l.planar = .contig
  bps : l.bps = 8 ∨ l.bps = 16
  width : 0 < l.tileWidth
  length : 0 < l.tileLength

/-- Byte `b` of a sample of the tiles. -/
def tileByte (l : Layout) (tiles : ℕ → ℕ → ℕ → UInt8) (x y c b : ℕ) : UInt8 :=
  tiles (x / l.tileWidth) (y / l.tileLength)
    (l.width.bytes * ((x % l.tileWidth + y % l.tileLength * l.tileWidth) * l.nc + c) + b)

/-- The region is read as it is, in bounds. -/
def ReadsTiledRegion (l : Layout) (tiles : ℕ → ℕ → ℕ → UInt8) (roi : Rect) : Prop :=
  ∃ out, readTiledData l.width l (fun i j => some (tiles i j)) roi = .ok out ∧
    ∀ x < roi.dims.w, ∀ y < roi.dims.h, ∀ c < l.nc, ∀ b < l.width.bytes,
      l.width.bytes * index roi.dims.w l.nc x y c + b < out.size ∧
      out.get (l.width.bytes * index roi.dims.w l.nc x y c + b) = tileByte l tiles (roi.x + x) (roi.y + y) c b

/-- The corners of the tiles are 32-bit numbers. -/
structure PlacesFit (l : Layout) (roi : Rect) : Prop where
  columns : (l.endX roi - 1) * l.tileWidth < 2 ^ 32
  rows : (l.endY roi - 1) * l.tileLength < 2 ^ 32

/-- So are the places of their pixels. -/
structure Spans (l : Layout) (roi : Rect) : Prop where
  columns : (l.endX roi - l.startX roi) * l.tileWidth ≤ 2 ^ 32
  rows : (l.endY roi - l.startY roi) * l.tileLength ≤ 2 ^ 32

section
variable {l : Layout} {roi : Rect}

theorem tileSize_eq_packed (l : Layout) : l.tileSize = packedBytes l.tileWidth l.lineChannels l.bps * l.tileLength :=
  l.tile_bytes

theorem tileSize_eq (h : Tiled l) : l.tileSize = l.width.bytes * (l.tileWidth * l.tileLength * l.nc) := by
  have hc := Layout.lineChannels_of_contig h.planar
  rw [tileSize_eq_packed, packedBytes, hc]
  rcases h.bps with h8 | h16
  · rw [h8, width_bytes_of_ne (by omega), show (l.tileWidth * l.nc * 8 + 7) / 8 = l.tileWidth * l.nc by omega]
    ring
  · rw [h16, width_bytes_of_eq h16, show (l.tileWidth * l.nc * 16 + 7) / 8 = 2 * (l.tileWidth * l.nc) by omega]
    ring

theorem tileBlock_eq (h : Tiled l) (hs : l.tileSize < 2 ^ 32) : tileBlock l.width l = l.tileSize := by
  rw [tileBlock, u32_of_lt hs]
  rcases h.bps with h8 | h16
  · rw [if_pos h8, width_bytes_of_ne (by omega), Nat.one_mul]
  · rw [if_neg (by omega), tileSize_eq h, width_bytes_of_eq h16]
    omega

theorem tileBlock_lt (h : Tiled l) (hs : 2 ^ 32 ≤ l.tileSize) : tileBlock l.width l < l.tileSize := by
  have hm : u32 l.tileSize < 2 ^ 32 := Nat.mod_lt _ (by decide)
  rw [tileBlock]
  rcases h.bps with h8 | h16
  · rw [if_pos h8, width_bytes_of_ne (by omega), Nat.one_mul]
    omega
  · rw [if_neg (by omega), width_bytes_of_eq h16]
    omega

variable {w : Width} {tx ty : ℕ}

theorem readTile_eq (h : Tiled l) (tiles : ℕ → ℕ → ℕ → UInt8)
    (hx : tx * l.tileWidth < 2 ^ 32) (hy : ty * l.tileLength < 2 ^ 32) :
    readTile w l (fun i j => some (tiles i j)) tx ty =
      if l.dims.w ≤ tx * l.tileWidth ∨ l.dims.h ≤ ty * l.tileLength then .error (.thrown (.tile tx ty))
      else if tileBlock w l < l.tileSize then .error .overrun else .ok ⟨tileBlock w l, tiles tx ty⟩ := by
  simp only [readTile, u32_of_lt hx, u32_of_lt hy, Nat.mul_div_cancel _ h.width, Nat.mul_div_cancel _ h.length]

theorem readTiledData_eq (h : Tiled l) (hc : l.CountFits) (tiles : Tiles) :
    readTiledData w l tiles roi =
      forRange (fun ty => forRange (fun tx buf => do
        let tile ← readTile w l tiles tx ty
        placeTile w l roi (tx - l.startX roi) (ty - l.startY roi) tile buf)
        (l.endX roi - l.startX roi) (l.startX roi)) (l.endY roi - l.startY roi) (l.startY roi)
        (.const (w.bytes * u32 (roi.dims.w * roi.dims.h * l.nc)) 0) := by
  have hw := h.width
  have hl := h.length
  have hb := h.bps
  rw [readTiledData, if_neg (by omega), if_neg (not_not.2 hc), if_neg (by omega)]
  simp only [contigTile, h.planar, ok_bind]

/-- The tiles that are read lie in the image. -/
def InImage (l : Layout) (roi : Rect) : Prop :=
  ∀ tx, l.startX roi ≤ tx → tx < l.endX roi → ∀ ty, l.startY roi ≤ ty → ty < l.endY roi →
    tx * l.tileWidth < l.dims.w ∧ ty * l.tileLength < l.dims.h

theorem PlacesFit.column (h : PlacesFit l roi) (hx : tx < l.endX roi) : tx * l.tileWidth < 2 ^ 32 :=
  (Nat.mul_le_mul_right _ (by omega)).trans_lt h.columns

theorem PlacesFit.row (h : PlacesFit l roi) (hy : ty < l.endY roi) : ty * l.tileLength < 2 ^ 32 :=
  (Nat.mul_le_mul_right _ (by omega)).trans_lt h.rows

theorem placed_ends (h : Tiled l) (hcn : l.CountFits) (hp : PlacesFit l roi) (hsp : Spans l roi)
    (hsz : l.tileSize < 2 ^ 32)
    (hs : roi.dims.w * roi.dims.h * l.nc < 2 ^ 32) (hin : InImage l roi) (tiles : ℕ → ℕ → ℕ → UInt8) :
    Ends (readTiledData l.width l (fun i j => some (tiles i j)) roi)
      (Filled l.width l roi (.const (l.width.bytes * (roi.dims.w * roi.dims.h * l.nc)) 0)
        (fun x y => tileByte l tiles (l.startX roi * l.tileWidth + x) (l.startY roi * l.tileLength + y))
        fun x y _ => x / l.tileWidth < l.endX roi - l.startX roi ∧ y / l.tileLength < l.endY roi - l.startY roi)
      fun _ => False := by
  have hw := h.width
  have hl := h.length
  rw [readTiledData_eq h hcn, u32_of_lt hs]
  set before := Buffer.const (l.width.bytes * (roi.dims.w * roi.dims.h * l.nc)) (0 : UInt8) with hbf
  set source := fun x y => tileByte l tiles (l.startX roi * l.tileWidth + x) (l.startY roi * l.tileLength + y) with hsr
  refine (forRange_ends (fun ty => Filled l.width l roi before source fun x y _ =>
    x / l.tileWidth < l.endX roi - l.startX roi ∧ y / l.tileLength < ty - l.startY roi) ⟨rfl, ?_⟩ ?_).imp
    fun out ho => ho.congr fun x _ y _ c _ => by
      generalize x / l.tileWidth = column, y / l.tileLength = row; omega
  · intro x _ y _ c _ b _
    exact ⟨fun hf => absurd (Nat.sub_self _ ▸ hf.2) (Nat.not_lt_zero _), fun _ => rfl⟩
  intro ty buf hlo hhi hbu
  refine (forRange_ends (fun tx => Filled l.width l roi before source fun x y _ =>
    (x / l.tileWidth < l.endX roi - l.startX roi ∧ y / l.tileLength < ty - l.startY roi) ∨
    (x / l.tileWidth < tx - l.startX roi ∧ y / l.tileLength = ty - l.startY roi))
    (hbu.congr fun x _ y _ c _ => by
      generalize x / l.tileWidth = column, y / l.tileLength = row; omega) ?_).imp
    fun out ho => ho.congr fun x _ y _ c _ => by
      generalize x / l.tileWidth = column, y / l.tileLength = row; omega
  intro tx buf hlx hh hbu
  have hx : tx < l.endX roi := by omega
  have hy : ty < l.endY roi := by omega
  obtain ⟨hi, hiy⟩ := hin tx hlx hx ty hlo hy
  rw [readTile_eq h tiles (hp.column hx) (hp.row hy), if_neg (by omega),
    if_neg (tileBlock_eq h hsz).ge.not_gt, ok_bind]
  have hpl : PlaceFits l roi (tx - l.startX roi) (ty - l.startY roi) :=
    { columns := (Nat.mul_le_mul_right _ (by omega)).trans hsp.columns
      rows := (Nat.mul_le_mul_right _ (by omega)).trans hsp.rows
      samples := hs
      tile := by
        rw [tileSize_eq h] at hsz
        exact ((Nat.le_mul_of_pos_left _ l.width.bytes_pos).trans_lt hsz).le }
  refine (placeTile_ends hw hl hpl hbu fun tileX ht tileY hty c hc b hb => ?_).imp
    fun out ho => ho.congr fun x _ y _ c _ => by
      generalize x / l.tileWidth = column, y / l.tileLength = row; omega
  -- the tile is the one that the image has there
  have hX : l.startX roi * l.tileWidth + ((tx - l.startX roi) * l.tileWidth + tileX) = tx * l.tileWidth + tileX := by
    rw [← Nat.add_assoc, ← Nat.add_mul, Nat.add_sub_cancel' hlx]
  have hY : l.startY roi * l.tileLength + ((ty - l.startY roi) * l.tileLength + tileY) = ty * l.tileLength + tileY := by
    rw [← Nat.add_assoc, ← Nat.add_mul, Nat.add_sub_cancel' hlo]
  obtain ⟨hXd, hXm⟩ := (eq_iff_div_mod ht).1 (rfl : tx * l.tileWidth + tileX = _)
  obtain ⟨hYd, hYm⟩ := (eq_iff_div_mod hty).1 (rfl : ty * l.tileLength + tileY = _)
  simp only [hsr, hX, hY, tileByte, hXd, hXm, hYd, hYm]

/-! ### When a region is read as it is -/

/-- The region begins at a tile, and tiles cover it. -/
structure Aligned (l : Layout) (roi : Rect) : Prop where
  left : l.startX roi * l.tileWidth = roi.x
  upper : l.startY roi * l.tileLength = roi.y
  right : roi.x + roi.dims.w ≤ l.endX roi * l.tileWidth
  lower : roi.y + roi.dims.h ≤ l.endY roi * l.tileLength
  columns : (l.endX roi - 1) * l.tileWidth < l.dims.w
  rows : (l.endY roi - 1) * l.tileLength < l.dims.h

theorem Aligned.inImage (h : Aligned l roi) : InImage l roi := fun tx _ hx ty _ hy =>
  ⟨(Nat.mul_le_mul_right _ (by omega)).trans_lt h.columns, (Nat.mul_le_mul_right _ (by omega)).trans_lt h.rows⟩

theorem placeTile_size (tile inbuf : Buffer UInt8) :
    Ends (placeTile w l roi dx dy tile inbuf) (fun out => out.size = inbuf.size) fun _ => True := by
  refine forCount_ends (fun _ (buf : Buffer UInt8) => buf.size = inbuf.size) rfl fun tileX buf _ hb => ?_
  refine forCount_ends (fun _ (buf : Buffer UInt8) => buf.size = inbuf.size) hb fun tileY buf _ hb => ?_
  dsimp only
  split_ifs
  · refine forCount_ends (fun _ (buf : Buffer UInt8) => buf.size = inbuf.size) hb fun c buf _ hb => ?_
    exact Buffer.copy_ends (fun _ => hb) fun _ => trivial
  · exact hb

theorem readTiledData_size (w : Width) (tiles : Tiles) :
    Ends (readTiledData w l tiles roi)
      (fun out => out.size = w.bytes * u32 (roi.dims.w * roi.dims.h * l.nc)) fun _ => True := by
  unfold readTiledData
  split_ifs
  · trivial
  · trivial
  · refine forRange_ends (fun _ (buf : Buffer UInt8) => buf.size = _) rfl fun ty buf _ _ hb => ?_
    refine forRange_ends (fun _ (buf : Buffer UInt8) => buf.size = _) hb fun tx buf _ _ hb => ?_
    refine (ends_trivial _).bind fun tile _ => (ends_trivial _).bind fun tile _ => ?_
    exact (placeTile_size tile buf).imp fun out ho => ho.trans hb
  · trivial

variable {tiles : ℕ → ℕ → ℕ → UInt8}

theorem samples_lt_of_tiles (h : ReadsTiledRegion l tiles roi) : roi.dims.w * roi.dims.h * l.nc < 2 ^ 32 := by
  obtain ⟨out, ho, hg⟩ := h
  exact samples_lt_of_last l.nc_pos ((readTiledData_size _ _).of_ok ho)
    fun x hx y hy c hc => (hg x hx y hy c hc 0 l.width.bytes_pos).1

theorem countFits_of_tiles (h : Tiled l) (hr : ReadsTiledRegion l tiles roi) : l.CountFits := by
  obtain ⟨out, ho, -⟩ := hr
  have hw := h.width
  have hl := h.length
  by_contra hc
  rw [readTiledData, if_neg (by omega), if_pos hc] at ho
  cases ho

theorem start_lt_end (h : Tiled l) (hr : ReadsTiledRegion l (fun _ _ _ => 0xff) roi) :
    l.startX roi < l.endX roi ∧ l.startY roi < l.endY roi := by
  have hc := countFits_of_tiles h hr
  obtain ⟨out, ho, hg⟩ := hr
  have hs := (hg 0 roi.dims.w_pos 0 roi.dims.h_pos 0 l.nc_pos 0 l.width.bytes_pos).2
  rw [readTiledData_eq h hc] at ho
  by_contra hn
  -- without a tile the block stays as it was
  have hz := (forRange_ends (E := fun _ => True) (fun _ (buf : Buffer UInt8) => ∀ p, buf.get p = 0) (fun _ => rfl)
    fun ty buf hlo hhi hb => ?_).of_ok ho
  · rw [hz] at hs
    exact absurd hs (by simp [tileByte])
  · rw [show l.endX roi - l.startX roi = 0 by omega]
    exact hb

theorem not_reads_of_tile (h : Tiled l) {e : Failure}
    (hl : l.startX roi ≤ tx) (hx : tx < l.endX roi) (hly : l.startY roi ≤ ty) (hy : ty < l.endY roi)
    (he : readTile l.width l (fun i j => some (tiles i j)) tx ty = .error e) : ¬ ReadsTiledRegion l tiles roi := by
  intro hr
  have hc := countFits_of_tiles h hr
  obtain ⟨out, ho, -⟩ := hr
  rw [readTiledData_eq h hc] at ho
  refine (forRange_fails hly (by omega) (fun buf => ?_) _).of_ok ho
  refine forRange_fails hl (by omega) (fun buf => ?_) _
  rw [he]
  trivial

theorem inImage_of_tiles (h : Tiled l) (hp : PlacesFit l roi)
    (hr : ReadsTiledRegion l tiles roi) : InImage l roi := by
  intro tx hl hx ty hly hy
  by_contra ho
  refine not_reads_of_tile (e := .thrown (.tile tx ty)) h hl hx hly hy ?_ hr
  rw [readTile_eq h tiles (hp.column hx) (hp.row hy), if_pos (by omega)]

theorem tileSize_of_tiles (h : Tiled l) (hp : PlacesFit l roi)
    (hr : ReadsTiledRegion l (fun _ _ _ => 0xff) roi) : l.tileSize < 2 ^ 32 := by
  obtain ⟨hx, hy⟩ := start_lt_end h hr
  obtain ⟨hi, hin⟩ := inImage_of_tiles h hp hr _ le_rfl hx _ le_rfl hy
  by_contra hl
  refine not_reads_of_tile (e := .overrun) h le_rfl hx le_rfl hy ?_ hr
  rw [readTile_eq h _ (hp.column hx) (hp.row hy), if_neg (by omega),
    if_pos (tileBlock_lt h (not_lt.1 hl))]

/-- An image that is black but for one pixel. -/
def spot (l : Layout) (x y i j r : ℕ) : UInt8 :=
  if i = x / l.tileWidth ∧ j = y / l.tileLength ∧
    r / (l.width.bytes * l.nc) = x % l.tileWidth + y % l.tileLength * l.tileWidth then 0xff else 0

theorem tileByte_spot (h : Tiled l) (x y x' y' : ℕ) :
    tileByte l (spot l x y) x' y' 0 0 = if x' = x ∧ y' = y then 0xff else 0 := by
  have hc : l.width.bytes * ((x' % l.tileWidth + y' % l.tileLength * l.tileWidth) * l.nc + 0) + 0 =
      l.width.bytes * l.nc * (x' % l.tileWidth + y' % l.tileLength * l.tileWidth) := by ring
  have hps : 0 < l.width.bytes * l.nc := Nat.mul_pos l.width.bytes_pos l.nc_pos
  rw [tileByte, spot, hc, Nat.mul_div_cancel_left _ hps]
  congr 1
  rw [eq_iff_iff]
  constructor
  · rintro ⟨hX, hY, hpx⟩
    -- a pixel of a tile is one row and one column
    have hp : index l.tileWidth 1 (x' % l.tileWidth) (y' % l.tileLength) 0 =
        index l.tileWidth 1 (x % l.tileWidth) (y % l.tileLength) 0 := by
      simp only [index]
      omega
    obtain ⟨hxm, hym, -⟩ := index_inj (Nat.mod_lt _ h.width) one_pos (Nat.mod_lt _ h.width) one_pos hp
    rw [← Nat.div_add_mod x' l.tileWidth, ← Nat.div_add_mod y' l.tileLength, hX, hY, hxm, hym, Nat.div_add_mod,
      Nat.div_add_mod]
    exact ⟨rfl, rfl⟩
  · rintro ⟨rfl, rfl⟩
    exact ⟨rfl, rfl, rfl⟩

/-! ### Places that wrap around -/

/-- A pixel is copied to the corner of the region. -/
def Hits (l : Layout) (dx dy tileX tileY : ℕ) : Prop :=
  u32 (dx * l.tileWidth + tileX) = 0 ∧ u32 (dy * l.tileLength + tileY) = 0

theorem placeTile_corner {tile buf : Buffer UInt8} (hs : roi.dims.w * roi.dims.h * l.nc < 2 ^ 32)
    (htl : ∀ tileX < l.tileWidth, ∀ tileY < l.tileLength, Hits l dx dy tileX tileY →
      tile.get (w.bytes * u32 ((tileX + tileY * l.tileWidth) * l.nc)) = 0) {Z : Prop} (hb : Z → buf.get 0 = 0) :
    Ends (placeTile w l roi dx dy tile buf)
      (fun out => (Z ∨ ∃ tileX < l.tileWidth, ∃ tileY < l.tileLength, Hits l dx dy tileX tileY) → out.get 0 = 0)
      fun _ => True := by
  refine forCount_reaches (fun out : Buffer UInt8 => out.get 0 = 0)
    (fun tileX => ∃ tileY < l.tileLength, Hits l dx dy tileX tileY) hb fun tileX ht buf Z hb => ?_
  refine forCount_reaches (fun out : Buffer UInt8 => out.get 0 = 0) (Hits l dx dy tileX) hb
    fun tileY hty buf Z hb => ?_
  dsimp only
  split_ifs with hin
  · refine (forCount_reaches (fun out : Buffer UInt8 => out.get 0 = 0) (fun c => c = 0 ∧ Hits l dx dy tileX tileY) hb
      fun c hc buf Z hb => ?_).imp
      fun out ho h => ho (h.imp_right fun hh => ⟨0, l.nc_pos, rfl, hh⟩)
    refine Buffer.copy_ends (fun _ ha => ?_) fun _ => trivial
    have hd := index_lt hin.1 hin.2 hc
    unfold index at hd
    rw [u32_of_lt (hd.trans hs)]
    by_cases hcr : c = 0 ∧ Hits l dx dy tileX tileY
    · obtain ⟨rfl, hh⟩ := hcr
      have hg := Buffer.get_blit_of_lt buf 0 tile (w.bytes * u32 ((tileX + tileY * l.tileWidth) * l.nc)) w.bytes_pos
      simp only [hh.1, hh.2, Nat.zero_mul, Nat.add_zero, Nat.mul_zero] at hg ⊢
      rw [hg]
      exact htl tileX ht tileY hty hh
    · rw [Buffer.get_blit_of_disjoint _ _ _ _ _ (.inl ?_)]
      · exact hb (ha.resolve_right hcr)
      · refine Nat.mul_pos w.bytes_pos (Nat.pos_of_ne_zero fun hz => hcr ?_)
        have hnc := l.nc_pos
        have hw := roi.dims.w_pos
        rw [Nat.add_eq_zero_iff, Nat.mul_eq_zero, Nat.add_eq_zero_iff, Nat.mul_eq_zero] at hz
        exact ⟨hz.2, by omega, by omega⟩
  · -- the corner is in the region
    refine fun h => hb (h.resolve_right fun hh => hin ?_)
    rw [hh.1, hh.2]
    exact ⟨roi.dims.w_pos, roi.dims.h_pos⟩

theorem le_of_u32_eq_zero {n : ℕ} (h : u32 n = 0) (hp : 0 < n) : 2 ^ 32 ≤ n := by
  unfold u32 at h
  omega

theorem spot_of_hit (h : Tiled l) (hi : Inside l roi) (hs : l.tileSize < 2 ^ 32)
    (hlx : l.startX roi ≤ tx) (hly : l.startY roi ≤ ty) (ho : tx ≠ l.startX roi ∨ ty ≠ l.startY roi)
    (ht : tileX < l.tileWidth) (hty : tileY < l.tileLength)
    (hh : Hits l (tx - l.startX roi) (ty - l.startY roi) tileX tileY) :
    spot l roi.x roi.y tx ty (l.width.bytes * u32 ((tileX + tileY * l.tileWidth) * l.nc)) = 0 := by
  have hsr : (tileX + tileY * l.tileWidth) * l.nc < 2 ^ 32 := by
    have hlt : index l.tileWidth l.nc tileX tileY 0 < l.tileWidth * l.tileLength * l.nc :=
      index_lt ht hty l.nc_pos
    rw [tileSize_eq h] at hs
    calc (tileX + tileY * l.tileWidth) * l.nc = index l.tileWidth l.nc tileX tileY 0 := by simp only [index]; ring
      _ < l.tileWidth * l.tileLength * l.nc := hlt
      _ ≤ l.width.bytes * (l.tileWidth * l.tileLength * l.nc) := Nat.le_mul_of_pos_left _ l.width.bytes_pos
      _ < 2 ^ 32 := hs
  have hb := tileByte_spot h roi.x roi.y (tx * l.tileWidth + tileX) (ty * l.tileLength + tileY)
  obtain ⟨hXd, hXm⟩ := (eq_iff_div_mod ht).1 (rfl : tx * l.tileWidth + tileX = _)
  obtain ⟨hYd, hYm⟩ := (eq_iff_div_mod hty).1 (rfl : ty * l.tileLength + tileY = _)
  simp only [tileByte, hXd, hXm, hYd, hYm, Nat.add_zero] at hb
  rw [u32_of_lt hsr, hb, if_neg]
  rintro ⟨hX, hY⟩
  have hc := hi.columns
  have hr := hi.rows
  have hnx := l.nx_lt
  have hny := l.ny_lt
  have hw := h.width
  have hl := h.length
  have hx : (tx - l.startX roi) * l.tileWidth ≤ tx * l.tileWidth := Nat.mul_le_mul_right _ (Nat.sub_le _ _)
  have hy : (ty - l.startY roi) * l.tileLength ≤ ty * l.tileLength := Nat.mul_le_mul_right _ (Nat.sub_le _ _)
  rcases ho with hne | hne
  · have := le_of_u32_eq_zero hh.1 (Nat.add_pos_left (Nat.mul_pos (by omega) hw) _)
    omega
  · have := le_of_u32_eq_zero hh.2 (Nat.add_pos_left (Nat.mul_pos (by omega) hl) _)
    omega

theorem not_reads_of_hit (h : Tiled l) (hi : Inside l roi) (hp : PlacesFit l roi)
    (hsz : l.tileSize < 2 ^ 32) (hlx : l.startX roi ≤ tx) (hx : tx < l.endX roi)
    (hl : l.startY roi ≤ ty) (hy : ty < l.endY roi)
    (ho : tx ≠ l.startX roi ∨ ty ≠ l.startY roi) (ht : tileX < l.tileWidth) (hty : tileY < l.tileLength)
    (hh : Hits l (tx - l.startX roi) (ty - l.startY roi) tileX tileY) :
    ¬ ReadsTiledRegion l (spot l roi.x roi.y) roi := by
  intro hr
  have hc := countFits_of_tiles h hr
  have hsm := samples_lt_of_tiles hr
  obtain ⟨out, hot, hg⟩ := hr
  have hs := (hg 0 roi.dims.w_pos 0 roi.dims.h_pos 0 l.nc_pos 0 l.width.bytes_pos).2
  simp only [tileByte_spot h, Nat.add_zero, and_self, if_true, index, Nat.zero_mul, Nat.mul_zero] at hs
  rw [readTiledData_eq h hc] at hot
  -- from that tile on the corner is black
  have hbl := (forRange_ends (E := fun _ => True) (fun j (buf : Buffer UInt8) => ty < j → buf.get 0 = 0)
    (fun hlt => absurd hlt (not_lt.2 hl)) fun ty' buf hL' hH' hbf => ?_).of_ok hot
  · rw [hbl (by omega)] at hs
    exact absurd hs (by decide)
  refine (forRange_ends (fun i (buf : Buffer UInt8) => (ty < ty' ∨ (ty = ty' ∧ tx < i)) → buf.get 0 = 0)
    (fun hb => hbf (hb.resolve_right fun hrw => by omega)) ?_).imp
    fun out hot hlt => hot (by omega)
  intro tx' buf hl' hhx' hbf
  by_cases hf : tx' = l.startX roi ∧ ty' = l.startY roi
  · exact (ends_trivial _).imp fun _ _ hb => absurd hb (by omega)
  rw [readTile_eq h _ (hp.column (by omega)) (hp.row (by omega))]
  split_ifs
  · trivial
  · trivial
  refine (placeTile_corner hsm (fun tileX' ht' tileY' hT' hh' => ?_) hbf).imp
    fun out hot ha => hot ?_
  · exact spot_of_hit h hi hsz hl' hL' (by omega) ht' hT' hh'
  · rcases ha with hlt | ⟨rfl, hle⟩
    · exact .inl (.inl hlt)
    · rcases Nat.lt_succ_iff_lt_or_eq.1 hle with hlt | rfl
      · exact .inl (.inr ⟨rfl, hlt⟩)
      · exact .inr ⟨tileX, ht, tileY, hty, hh⟩

theorem sides_lt_of_tileSize (h : Tiled l) (hs : l.tileSize < 2 ^ 32) :
    l.tileWidth < 2 ^ 32 ∧ l.tileLength < 2 ^ 32 := by
  have ha : l.tileWidth * l.tileLength ≤ l.tileSize := by
    rw [tileSize_eq h]
    exact (Nat.le_mul_of_pos_right _ l.nc_pos).trans (Nat.le_mul_of_pos_left _ l.width.bytes_pos)
  exact ⟨(Nat.le_mul_of_pos_right _ h.length).trans_lt (ha.trans_lt hs),
    (Nat.le_mul_of_pos_left _ h.width).trans_lt (ha.trans_lt hs)⟩

theorem exists_wrap {side n : ℕ} (hp : 0 < side) (hs : side < 2 ^ 32) (hn : 2 ^ 32 < n * side) :
    ∃ k r, 0 < k ∧ k < n ∧ r < side ∧ k * side + r = 2 ^ 32 := by
  refine ⟨2 ^ 32 / side, 2 ^ 32 % side, Nat.div_pos hs.le hp, ?_, Nat.mod_lt _ hp, ?_⟩
  · rwa [Nat.div_lt_iff_lt_mul hp]
  · rw [Nat.mul_comm]
    exact Nat.div_add_mod _ _

theorem spans_of_tiles (h : Tiled l) (hi : Inside l roi) (hpl : PlacesFit l roi)
    (hs : l.tileSize < 2 ^ 32) (hrd : ∀ tiles, ReadsTiledRegion l tiles roi) : Spans l roi := by
  obtain ⟨hx, hy⟩ := start_lt_end h (hrd _)
  obtain ⟨hw, hln⟩ := sides_lt_of_tileSize h hs
  constructor
  · by_contra hl
    obtain ⟨k, r, hk, hkn, hr, hp⟩ := exists_wrap h.width hw (not_le.1 hl)
    refine not_reads_of_hit h hi hpl hs (Nat.le_add_right _ k) (by omega) le_rfl hy (.inl (by omega)) hr
      h.length ⟨?_, ?_⟩ (hrd _)
    · rw [Nat.add_sub_cancel_left, hp]
      rfl
    · rw [Nat.sub_self, Nat.zero_mul]
      rfl
  · by_contra hl
    obtain ⟨k, r, hk, hkn, hr, hp⟩ := exists_wrap h.length hln (not_le.1 hl)
    refine not_reads_of_hit h hi hpl hs le_rfl hx (Nat.le_add_right _ k) (by omega)
      (.inr (by omega)) h.width hr ⟨?_, ?_⟩ (hrd _)
    · rw [Nat.sub_self, Nat.zero_mul]
      rfl
    · rw [Nat.add_sub_cancel_left, hp]
      rfl

end

/-- **A region is read from tiles as it is in the image** exactly if the tiles are as many as the reader expects, the
region begins at the corner of its first tile, the tiles cover it and lie in the image, and no number is too large
for 32 bits. -/
theorem tiled_region_iff (l : Layout) (roi : Rect) (h : Tiled l) (hinside : Inside l roi)
    (hplaces : PlacesFit l roi) :
    (∀ tiles, ReadsTiledRegion l tiles roi) ↔
      l.CountFits ∧ Aligned l roi ∧ Spans l roi ∧ l.tileSize < 2 ^ 32 ∧ roi.dims.w * roi.dims.h * l.nc < 2 ^ 32 := by
  have hw := roi.dims.w_pos
  have hh := roi.dims.h_pos
  constructor
  · intro hr
    have hcn := countFits_of_tiles h (hr fun _ _ _ => 0)
    have hin := inImage_of_tiles h hplaces (hr fun _ _ _ => 0)
    have hsz := tileSize_of_tiles h hplaces (hr _)
    have hsm := samples_lt_of_tiles (hr fun _ _ _ => 0)
    have hsp := spans_of_tiles h hinside hplaces hsz hr
    obtain ⟨hx, hy⟩ := start_lt_end h (hr _)
    have hls := hin (l.endX roi - 1) (by omega) (by omega) (l.endY roi - 1) (by omega) (by omega)
    -- a spot at the corner of the region has to come from the corner of the first tile
    obtain ⟨hlf, hu⟩ : l.startX roi * l.tileWidth = roi.x ∧ l.startY roi * l.tileLength = roi.y := by
      obtain ⟨out, ho, hg⟩ := hr (spot l roi.x roi.y)
      have hp := ((placed_ends h hcn hplaces hsp hsz hsm hin _).of_ok ho).get
        0 hw 0 hh 0 l.nc_pos 0 l.width.bytes_pos
      have hs := (hg 0 hw 0 hh 0 l.nc_pos 0 l.width.bytes_pos).2
      simp only [tileByte_spot h, Nat.add_zero, Nat.zero_div, and_self, if_true] at hp hs
      rw [hp.1 ⟨by omega, by omega⟩] at hs
      by_contra hne
      rw [if_neg hne] at hs
      exact absurd hs (by decide)
    -- the last column and the last row have to be covered
    obtain ⟨hrg, hl⟩ : (roi.dims.w - 1) / l.tileWidth < l.endX roi - l.startX roi ∧
        (roi.dims.h - 1) / l.tileLength < l.endY roi - l.startY roi := by
      obtain ⟨out, ho, hg⟩ := hr fun _ _ _ => 0xff
      have hp := ((placed_ends h hcn hplaces hsp hsz hsm hin _).of_ok ho).get
        (roi.dims.w - 1) (by omega) (roi.dims.h - 1) (by omega) 0 l.nc_pos 0 l.width.bytes_pos
      have hs := (hg (roi.dims.w - 1) (by omega) (roi.dims.h - 1) (by omega) 0 l.nc_pos 0 l.width.bytes_pos).2
      by_contra hn
      rw [hp.2 hn] at hs
      exact absurd hs (by simp [tileByte])
    rw [Nat.div_lt_iff_lt_mul h.width, Nat.sub_mul, hlf] at hrg
    rw [Nat.div_lt_iff_lt_mul h.length, Nat.sub_mul, hu] at hl
    exact ⟨hcn, ⟨hlf, hu, by omega, by omega, hls.1, hls.2⟩, hsp, hsz, hsm⟩
  · rintro ⟨hcn, ha, hsp, hsz, hsm⟩ tiles
    obtain ⟨out, ho, hf⟩ :=
      (placed_ends h hcn hplaces hsp hsz hsm ha.inImage tiles).exists_ok
    refine ⟨out, ho, fun x hx y hy c hc b hb => ⟨?_, ?_⟩⟩
    · rw [hf.size]
      exact index_byte_lt hx hy hc hb
    · have hrg := ha.right
      have hl := ha.lower
      have hcv : x / l.tileWidth < l.endX roi - l.startX roi ∧ y / l.tileLength < l.endY roi - l.startY roi := by
        rw [Nat.div_lt_iff_lt_mul h.width, Nat.div_lt_iff_lt_mul h.length, Nat.sub_mul, Nat.sub_mul, ha.left,
          ha.upper]
        omega
      rw [(hf.get x hx y hy c hc b hb).1 hcv, ha.left, ha.upper]

/-- 1040 by 780 pixels in tiles of 256 by 256. -/
def tiledPhoto : Layout :=
  { photo with
    dims := { w := 1040, h := 780 }, nx_lt := by decide, ny_lt := by decide, bpsTag := some 8
    tileWidth := 256, tileLength := 256, scanlineSize := 3120, tileSize := 196608, numberOfTiles := 20
    scanline_bytes := by decide, tile_bytes := by decide, tiles_counted := by decide }

theorem tiledPhoto_region_is_read : Tiled tiledPhoto ∧ Inside tiledPhoto ⟨256, 512, { w := 300, h := 268 }⟩ ∧
      PlacesFit tiledPhoto ⟨256, 512, { w := 300, h := 268 }⟩ ∧
      ∀ tiles, ReadsTiledRegion tiledPhoto tiles ⟨256, 512, { w := 300, h := 268 }⟩ := by
  have h : Tiled tiledPhoto := ⟨rfl, .inl rfl, by decide, by decide⟩
  have hin : Inside tiledPhoto ⟨256, 512, { w := 300, h := 268 }⟩ := ⟨by decide, by decide⟩
  have hp : PlacesFit tiledPhoto ⟨256, 512, { w := 300, h := 268 }⟩ := ⟨by decide +kernel, by decide +kernel⟩
  refine ⟨h, hin, hp, (tiled_region_iff tiledPhoto _ h hin hp).2
    ⟨by decide +kernel, ?_, ⟨by decide +kernel, by decide +kernel⟩, by decide +kernel, by decide⟩⟩
  constructor <;> decide +kernel

/-- A row of four pixels in tiles of two. -/
def fourInTwo : Layout where
  dims := { w := 4, h := 1, h_pos := Nat.one_pos }
  nc := 1
  nc_pos := Nat.one_pos
  bpsTag := some 8
  photo := .minIsBlack
  planar := .contig
  compressed := false
  tileWidth := 2
  tileLength := 1
  scanlineSize := 4
  tileSize := 2
  numberOfTiles := 2

theorem offset_in_tile_is_lost :
    tileByte fourInTwo (fun i _ r => UInt8.ofNat (10 + 2 * i + r)) 1 0 0 0 = 11 ∧
      (readTiledData .byte fourInTwo (fun i _ => some fun r => UInt8.ofNat (10 + 2 * i + r))
        ⟨1, 0, { w := 1, h := 1 }⟩).map (·.get 0) = .ok 10 := by
  decide +kernel

end Sipi.Formats
