import Sipi.Formats.Pyramid
import Sipi.Formats.Tiles

/-!
# Reading a TIFF with several directories

`SipiIOTiff::read` takes the channels and the bits of a sample from the first directory of a file, and the pixels
from the directory that `select_pyramid_level` picks.

## Honest scope

Only destinations are checked. What happens to the pixels afterwards is left out.
-/

namespace Sipi.Formats

open Sipi.Theory Sipi.Geometry Sipi.Iiif

/-! ### The file -/

/-- A file: the tags of its directories. -/
structure Tiff where
  first : Layout
  rest : List Layout

/-- What `libtiff` reads from a directory. -/
structure Content where
  scans : Scans
  tiles : Tiles

/-- `TIFFSetDirectory`. -/
def Tiff.directory (t : Tiff) (level : ℕ) : Layout := (t.first :: t.rest).getD level t.first

/-- `read_resolutions`. -/
def Tiff.resolutions (t : Tiff) : List ℕ :=
  readResolutions single.round t.first.dims.w (t.rest.map fun l => l.dims.w)

/-- The directory for a size, and its ratio. -/
def Tiff.level (t : Tiff) (size : Option SizeParts) : Except Failure (ℕ × ℕ) :=
  match size with
  | none => .ok (0, 1)
  | some s =>
    match getSize none s t.first.dims with
    | .error .overflow => .error .overflow
    | .error _ => .error (.thrown .size)
    | .ok r =>
      let level := selectLevel t.resolutions r.reduce
      .ok (level, t.resolutions.getD level 1)

/-- No factor of `get_size` overflows. -/
def Tiff.SizeDefined (t : Tiff) (size : Option SizeParts) : Prop :=
  ∀ s ∈ size, getSize none s t.first.dims ≠ .error .overflow

/-- The region in a directory. -/
def Tiff.roi (t : Tiff) (region : Option Region) (level reduce : ℕ) : Except Failure Rect :=
  match region with
  | none => .ok ⟨0, 0, (t.directory level).dims⟩
  | some r =>
    match cropCoords r reduce (t.directory level).dims with
    | .error _ => .error (.thrown .region)
    | .ok rect => .ok rect

/-- The directory that is read, and the region in it. -/
def Tiff.locate (t : Tiff) (region : Option Region) (size : Option SizeParts) : Except Failure (ℕ × Rect) := do
  let (level, reduce) ← t.level size
  let roi ← t.roi region level reduce
  return (level, roi)

/-- `switch (img->bps)`. -/
def sampleWidth : ℕ → Option Width
  | 1 => some .byte
  | 8 => some .byte
  | 16 => some .word
  | _ => none

/-- `img->bps`, one without the tag. -/
def Tiff.bps (t : Tiff) : ℕ := t.first.bpsTag.getD 1

/-- The image once its pixels are there. -/
structure Loaded where
  pixels : Buffer UInt8
  copied : ℕ
  nc : ℕ
  width : Width
  dims : Dims

/-- The reader is `read_tiled_data`. -/
def Layout.IsTiled (l : Layout) : Prop := l.tileWidth ≠ 0 ∧ l.tileLength ≠ 0

instance (l : Layout) : Decidable l.IsTiled := inferInstanceAs (Decidable (_ ∧ _))

/-- The pixels of the region on the level. -/
def pixdata (w : Width) (l : Layout) (junk : UInt8 × UInt8) (content : Content) (roi : Rect) :
    Except Failure (Buffer UInt8) :=
  if l.IsTiled then readTiledData w l content.tiles roi else readStandardData w l junk content.scans roi

/-- The second half of `SipiIOTiff::read`. -/
def load (t : Tiff) (junk : UInt8 × UInt8) (content : Content) (level : ℕ) (roi : Rect) : Except Failure Loaded :=
  match sampleWidth t.bps with
  | none => .error (.thrown (.bits t.bps))
  | some w => do
    let inbuf := Buffer.const (w.bytes * roi.dims.w * roi.dims.h * t.first.nc % 2 ^ 64) 0
    let data ← pixdata w (t.directory level) junk content roi
    let pixels ← inbuf.copy .overrun 0 data 0 data.size
    return { pixels, copied := data.size, nc := t.first.nc, width := w, dims := roi.dims }

/-- `SipiIOTiff::read`. -/
def read (t : Tiff) (junk : UInt8 × UInt8) (contents : ℕ → Content) (region : Option Region)
    (size : Option SizeParts) : Except Failure Loaded := do
  let (level, roi) ← t.locate region size
  load t junk (contents level) level roi

theorem scan_dims {full : Dims} {divisor : ℕ} {all ds : List Dims} {level i : ℕ} {chosen : Dims}
    (hw : ∀ d ∈ ds, full.w + d.w ≤ 2 ^ 22) (hc : all[level]? = some chosen) (hr : all.drop i = ds) :
    all[scan divisor level i (ds.map fun d => reduceW single.round full.w d.w)]? =
      some (selectFrom full divisor chosen ds) := by
  induction ds generalizing level i chosen with
  | nil => exact hc
  | cons d ds ih =>
    have hg : all[i]? = some d := by rw [← List.head?_drop, hr]; rfl
    have ht : all.drop (i + 1) = ds := by rw [← List.tail_drop, hr]; rfl
    rw [List.map_cons, scan, selectFrom, reduceW_single full d (hw d List.mem_cons_self)]
    split_ifs
    · exact ih (fun d hd => hw d (List.mem_cons_of_mem _ hd)) hg ht
    · exact hc

theorem level_dims (t : Tiff) (hw : ∀ l ∈ t.first :: t.rest, t.first.dims.w + l.dims.w ≤ 2 ^ 22) (reduceExp : ℕ) :
    ((t.first :: t.rest).map Layout.dims)[selectLevel t.resolutions reduceExp]? =
      some (selectPyramidLevel t.first.dims (t.rest.map Layout.dims) reduceExp) := by
  have hrs : t.resolutions = ((t.first :: t.rest).map Layout.dims).map fun d => reduceW single.round t.first.dims.w d.w := by
    simp [Tiff.resolutions, readResolutions]
  rw [selectLevel, selectPyramidLevel]
  by_cases he : reduceExp = 0
  · rw [if_pos he, if_pos (Or.inr (by omega))]
    rfl
  · rw [if_neg he, if_neg (by simp [hrs]; omega), hrs, divisor, Int.toNat_natCast]
    exact scan_dims (by simpa using hw) rfl rfl

/-- The failure is an exception. -/
def Failure.Thrown : Failure → Prop
  | .thrown _ => True
  | .overrun => False
  | .overflow => False

@[simp] theorem thrown_thrown (e : TiffError) : (Failure.thrown e).Thrown := trivial

@[simp] theorem not_thrown_overrun : ¬ Failure.overrun.Thrown := id

@[simp] theorem not_thrown_overflow : ¬ Failure.overflow.Thrown := id

theorem locate_ends (t : Tiff) (region : Option Region) (size : Option SizeParts) :
    Ends (t.locate region size) (fun p => t.SizeDefined size ∧ Inside (t.directory p.1) p.2)
      fun e => e.Thrown ↔ t.SizeDefined size := by
  have hl : Ends (t.level size) (fun _ => t.SizeDefined size) fun e => e.Thrown ↔ t.SizeDefined size := by
    unfold Tiff.level
    cases size with
    | none => simp [Tiff.SizeDefined]
    | some s =>
      have hd : t.SizeDefined (some s) ↔ getSize none s t.first.dims ≠ .error .overflow := by
        simp [Tiff.SizeDefined]
      simp only [hd]
      cases getSize none s t.first.dims with
      | ok r => simp
      | error e => cases e <;> simp
  refine hl.bind fun p hp => ?_
  have hro : Ends (t.roi region p.1 p.2) (Inside (t.directory p.1)) Failure.Thrown := by
    unfold Tiff.roi
    split
    · exact ⟨(Nat.zero_add _).le, (Nat.zero_add _).le⟩
    · split
      · trivial
      · next hr =>
        obtain ⟨hx, hy⟩ := crop_inside hr
        exact ⟨hx, hy⟩
  exact (hro.mono (fun _ h => h) fun e he => iff_of_true he hp).bind fun roi hin => ⟨hp, hin⟩

/-! ### Scanlines, for elements of any type 
-/

namespace Layout

/-- The samples of a group that is unpacked. -/
def group (l : Layout) : ℕ :=
  match l.bps with
  | 1 => 8
  | 4 => 2
  | 12 => 2
  | _ => 0

/-- The `switch (bps)` has a case for the samples. -/
def Known (l : Layout) : Prop := l.bps = 1 ∨ l.bps = 4 ∨ l.bps = 8 ∨ l.bps = 12 ∨ l.bps = 16

/-- The unpacking loop does not wrap around. -/
def LineUnpacks (l : Layout) : Prop := u32 (l.nc * l.dims.w) + l.group ≤ 2 ^ 32

/-- The bytes that are copied of a row. -/
def rowBytes (l : Layout) (roi : Rect) : ℕ := u32 (l.nc * roi.dims.w * l.psiz)

end Layout

/-- A row is unpacked, with room at `dest`. -/
def RowFits (w : Width) (l : Layout) (roi : Rect) (dest size : ℕ) : Prop :=
  l.LineUnpacks ∧ (l.Known → w.bytes * dest + l.rowBytes roi ≤ size)

/-- There is room for every row and scanline. -/
def RowsFit (w : Width) (l : Layout) (roi : Rect) : Prop :=
  l.scanlineSize < 2 ^ 32 ∧ ∀ y < roi.dims.h,
    RowFits w l roi (contigDest l roi (roi.y + y)) (w.bytes * u32 (roi.dims.w * roi.dims.h * l.nc))

section
variable {w : Width} {l : Layout} {junk : UInt8 × UInt8} {roi : Rect}

theorem unpack_spec (w : Width) {per len : ℕ} (hp : 0 < per) (hle : per ≤ 2 ^ 32) (value : ℕ → ℕ → ℕ) :
    Ends (unpack w per len value) (fun _ => len + per ≤ 2 ^ 32) fun e => e = .overrun ∧ ¬ len + per ≤ 2 ^ 32 := by
  by_cases hl : len + per ≤ 2 ^ 32
  · exact (unpack_ends w hp hl value).mono (fun _ _ => hl) fun _ => False.elim
  · rw [unpack, if_pos (by omega)]
    exact ⟨rfl, hl⟩

/-- What the `switch (bps)` gives. -/
structure Parted (l : Layout) (roi : Rect) (part : Option Part) : Prop where
  unpacks : l.LineUnpacks
  known : l.Known ↔ part.isSome
  count : ∀ p ∈ part, p.count = l.rowBytes roi

theorem unpack_parted {per start : ℕ} (hg : l.group = per) (hp : 0 < per) (hle : per ≤ 2 ^ 32)
    (hk : l.Known) {count : ℕ} (hc : count = l.rowBytes roi) (value : ℕ → ℕ → ℕ) :
    Ends ((unpack w per (u32 (l.nc * l.dims.w)) value).map fun line => some ⟨line, start, count⟩) (Parted l roi)
      fun e => e = .overrun ∧ ¬ l.LineUnpacks := by
  rw [Layout.LineUnpacks, hg]
  refine (unpack_spec w hp hle value).map fun line hl => ⟨?_, by simpa using hk, ?_⟩
  · rwa [Layout.LineUnpacks, hg]
  · rintro p ⟨⟩
    exact hc

theorem parted_of_group_eq_zero (hg : l.group = 0) {part : Option Part} (hk : l.Known ↔ part.isSome)
    (hc : ∀ p ∈ part, p.count = l.rowBytes roi) : Parted l roi part := by
  refine ⟨?_, hk, hc⟩
  rw [Layout.LineUnpacks, hg]
  exact (Nat.mod_lt _ (by decide)).le

theorem rowPart_ends (scan : Buffer UInt8) :
    Ends (rowPart w l junk l.nc roi scan) (Parted l roi) fun e => e = .overrun ∧ ¬ l.LineUnpacks := by
  unfold rowPart
  dsimp only
  split
  · next hb =>
    exact unpack_parted (by simp [Layout.group, hb]) (by decide) (by decide) (by simp [Layout.Known, hb])
      (by simp [Layout.rowBytes, Layout.psiz, hb]) _
  · next hb =>
    exact unpack_parted (by simp [Layout.group, hb]) (by decide) (by decide) (by simp [Layout.Known, hb])
      (by simp [Layout.rowBytes, Layout.psiz, hb]) _
  · next hb =>
    refine parted_of_group_eq_zero (by simp [Layout.group, hb]) (by simp [Layout.Known, hb]) ?_
    rintro p ⟨⟩
    simp [Layout.rowBytes, Layout.psiz, hb]
  · next hb =>
    exact unpack_parted (by simp [Layout.group, hb]) (by decide) (by decide) (by simp [Layout.Known, hb]) rfl _
  · next hb =>
    refine parted_of_group_eq_zero (by simp [Layout.group, hb]) (by simp [Layout.Known, hb]) ?_
    rintro p ⟨⟩
    rfl
  · next h1 h4 h8 h12 h16 =>
    refine parted_of_group_eq_zero ?_ ?_ (by simp)
    · unfold Layout.group
      split <;> first | rfl | contradiction
    · simp only [Layout.Known, Option.isSome_none, Bool.false_eq_true, iff_false]
      rintro (h | h | h | h | h)
      exacts [h1 h, h4 h, h8 h, h12 h, h16 h]

theorem copyRow_spec {dest : ℕ} (scan buf : Buffer UInt8) :
    Ends (copyRow w l junk l.nc roi dest scan buf) (fun out => out.size = buf.size ∧ RowFits w l roi dest buf.size)
      fun e => e = .overrun ∧ ¬ RowFits w l roi dest buf.size := by
  have hp : Ends (rowPart w l junk l.nc roi scan) (Parted l roi)
      fun e => e = .overrun ∧ ¬ RowFits w l roi dest buf.size :=
    (rowPart_ends scan).mono (fun _ => id) fun e he => ⟨he.1, fun h => he.2 h.1⟩
  refine hp.bind fun part h => ?_
  cases part with
  | none => exact ⟨rfl, h.unpacks, fun hk => absurd (h.known.1 hk) (by simp)⟩
  | some p =>
    have hc := h.count p rfl
    have hf : RowFits w l roi dest buf.size ↔ w.bytes * dest + p.count ≤ buf.size := by
      rw [RowFits, hc]
      exact ⟨fun hrw => hrw.2 (h.known.2 rfl), fun hr => ⟨h.unpacks, fun _ => hr⟩⟩
    dsimp only
    by_cases hr : w.bytes * dest + p.count ≤ buf.size
    · rw [Buffer.copy_of_le _ hr]
      exact ⟨rfl, hf.2 hr⟩
    · rw [Buffer.copy_of_lt _ (not_le.1 hr)]
      exact ⟨rfl, fun hrw => hr (hf.1 hrw)⟩

theorem readScanline_ends (scans : Scans) (i c : ℕ) :
    Ends (readScanline l scans i c) (fun _ => l.scanlineSize < 2 ^ 32) fun e =>
      (e.Thrown ∧ scans i c = none) ∨ (e = .overrun ∧ ¬ l.scanlineSize < 2 ^ 32) := by
  cases hs : scans i c with
  | none => simp [readScanline, hs]
  | some bytes =>
    by_cases hf : l.scanlineSize < 2 ^ 32
    · rw [readScanline_of_fits hs hf]
      exact hf
    · rw [readScanline_of_large hs (not_lt.1 hf)]
      exact .inr ⟨rfl, hf⟩

theorem readStandardData_ends (hc : l.planar = .contig) (hin : Inside l roi) (scans : Scans) :
    Ends (readStandardData w l junk scans roi)
      (fun out => out.size = w.bytes * u32 (roi.dims.w * roi.dims.h * l.nc) ∧ RowsFit w l roi) fun e =>
        (e.Thrown ∧ ∃ i, scans i 0 = none) ∨ (e = .overrun ∧ ¬ RowsFit w l roi) := by
  set size := w.bytes * u32 (roi.dims.w * roi.dims.h * l.nc) with hsz
  simp only [readStandardData, hc, region_size]
  refine (readRows_ends hin (.inr rfl) (fun y buf => buf.size = size ∧ (0 < y → l.scanlineSize < 2 ^ 32) ∧ ∀ q < y,
    RowFits w l roi (contigDest l roi (roi.y + q)) size) ⟨rfl, by simp, by simp⟩ (fun i _ => ?_) ?_).imp
    fun out h => ⟨h.1, h.2.1 roi.dims.h_pos, h.2.2⟩
  · refine (readScanline_ends scans i 0).mono (fun _ _ => trivial) fun e he => ?_
    exact he.imp (fun h => ⟨h.1, i, h.2⟩) fun h => ⟨h.1, fun hf => h.2 hf.1⟩
  · rintro y hy scan buf hs ⟨hb, -, hr⟩
    have hl := (readScanline_ends scans (roi.y + y) 0).of_ok hs
    refine (copyRow_spec scan buf).mono (fun out ho => ⟨ho.1.trans hb, fun _ => hl, fun q hq => ?_⟩)
      fun e he => .inr ⟨he.1, fun hf => he.2 (hb ▸ hf.2 y hy)⟩
    rcases Nat.lt_succ_iff_lt_or_eq.1 hq with hlt | rfl
    · exact hr q hlt
    · exact hb ▸ ho.2

theorem rows_room_iff {bytes len rows count : ℕ} (hr : 0 < rows) :
    (∀ y < rows, bytes * (len * y) + count ≤ bytes * (len * rows)) ↔ count ≤ bytes * len := by
  constructor
  · intro h
    obtain ⟨last, rfl⟩ := Nat.exists_eq_add_one.2 hr
    have hl := h last (by omega)
    rw [Nat.mul_succ, Nat.mul_add] at hl
    omega
  · intro h y hy
    calc bytes * (len * y) + count ≤ bytes * (len * y) + bytes * len := Nat.add_le_add_left h _
      _ = bytes * (len * (y + 1)) := by ring
      _ ≤ bytes * (len * rows) := Nat.mul_le_mul_left _ (Nat.mul_le_mul_left _ hy)

theorem rowsFit_iff_rowBytes (hs : roi.dims.w * roi.dims.h * l.nc < 2 ^ 32) :
    RowsFit w l roi ↔ l.scanlineSize < 2 ^ 32 ∧ l.LineUnpacks ∧
      (l.Known → l.rowBytes roi ≤ w.bytes * (l.nc * roi.dims.w)) := by
  have hr : roi.dims.w * roi.dims.h * l.nc = l.nc * roi.dims.w * roi.dims.h := by ring
  have hd : ∀ y < roi.dims.h, contigDest l roi (roi.y + y) = l.nc * roi.dims.w * y := by
    intro y hy
    rw [contigDest, Nat.add_sub_cancel_left, Nat.mul_right_comm]
    exact u32_of_lt ((Nat.mul_le_mul_left _ hy.le).trans_lt (hr ▸ hs))
  rw [RowsFit, u32_of_lt hs, hr]
  constructor
  · rintro ⟨hl, h⟩
    refine ⟨hl, (h 0 roi.dims.h_pos).1, fun hk => (rows_room_iff roi.dims.h_pos).1 fun y hy => ?_⟩
    exact hd y hy ▸ (h y hy).2 hk
  · rintro ⟨hl, hu, h⟩
    refine ⟨hl, fun y hy => ⟨hu, fun hk => ?_⟩⟩
    rw [hd y hy]
    exact (rows_room_iff roi.dims.h_pos).2 (h hk) y hy

theorem rowBytes_le_iff (hps : 0 < l.nc * roi.dims.w) (hlt : l.nc * roi.dims.w < 2 ^ 32)
    (hw : l.bps = 16 → l.nc * roi.dims.w * 2 < 2 ^ 32) :
    (l.Known → l.rowBytes roi ≤ w.bytes * (l.nc * roi.dims.w)) ↔
      (l.bps = 16 → w = .word) ∧ (l.bps = 12 → w = .word ∨ 2 ^ 31 ≤ l.nc * roi.dims.w) := by
  simp only [Layout.rowBytes, u32]
  generalize l.nc * roi.dims.w = len at *
  cases w with
  | word =>
    have hp : l.psiz ≤ 2 := by unfold Layout.psiz; split <;> decide
    simp only [true_or, implies_true, and_true, iff_true]
    intro _
    calc len * l.psiz % 2 ^ 32 ≤ len * l.psiz := Nat.mod_le _ _
      _ ≤ len * 2 := Nat.mul_le_mul_left _ hp
      _ = Width.word.bytes * len := Nat.mul_comm _ _
  | byte =>
    simp only [reduceCtorEq, false_or, Width.bytes, Nat.one_mul]
    constructor
    · intro h
      refine ⟨fun h16 => ?_, fun h12 => ?_⟩
      · have hr := h (by simp [Layout.Known, h16])
        have := hw h16
        rw [show l.psiz = 2 by simp [Layout.psiz, h16]] at hr
        omega
      · have hr := h (by simp [Layout.Known, h12])
        rw [show l.psiz = 2 by simp [Layout.psiz, h12]] at hr
        omega
    · rintro ⟨h16, h12⟩ (hb | hb | hb | hb | hb)
      · simpa [Layout.psiz, hb] using Nat.mod_le _ _
      · simpa [Layout.psiz, hb] using Nat.mod_le _ _
      · simpa [Layout.psiz, hb] using Nat.mod_le _ _
      · have := h12 hb
        rw [show l.psiz = 2 by simp [Layout.psiz, hb]]
        omega
      · exact (h16 hb).elim

theorem rowsFit_iff (hc : l.planar = .contig) (hin : Inside l roi) (hs : roi.dims.w * roi.dims.h * l.nc < 2 ^ 32) :
    RowsFit w l roi ↔ l.scanlineSize < 2 ^ 32 ∧ l.LineUnpacks ∧ (l.bps = 16 → w = .word) ∧
      (l.bps = 12 → w = .word ∨ 2 ^ 31 ≤ l.nc * roi.dims.w) := by
  rw [rowsFit_iff_rowBytes hs]
  refine and_congr_right fun hl => and_congr_right fun _ => ?_
  have hlt : l.nc * roi.dims.w < 2 ^ 32 := by
    refine lt_of_le_of_lt ?_ hs
    calc l.nc * roi.dims.w ≤ l.nc * roi.dims.w * roi.dims.h := Nat.le_mul_of_pos_right _ roi.dims.h_pos
      _ = roi.dims.w * roi.dims.h * l.nc := by ring
  refine rowBytes_le_iff (Nat.mul_pos l.nc_pos roi.dims.w_pos) hlt fun h16 => ?_
  have hcl := hin.columns
  have hle : l.nc * roi.dims.w ≤ l.nc * l.dims.w := Nat.mul_le_mul_left _ (by omega)
  rw [scanlineSize_eq (.inr h16), width_bytes_of_eq h16, Layout.lineChannels_of_contig hc] at hl
  omega

end

/-- `libtiff` has a tile there. -/
def HasTile (l : Layout) (tx ty : ℕ) : Prop := u32 (tx * l.tileWidth) < l.dims.w ∧ u32 (ty * l.tileLength) < l.dims.h

/-- The first tile of the region is in the image. -/
def FirstTile (l : Layout) (roi : Rect) : Prop :=
  l.startX roi < l.endX roi ∧ l.startY roi < l.endY roi ∧ HasTile l (l.startX roi) (l.startY roi)

/-- All tiles of the region are in the image. -/
def AllTiles (l : Layout) (roi : Rect) : Prop :=
  ∀ tx, l.startX roi ≤ tx → tx < l.endX roi → ∀ ty, l.startY roi ≤ ty → ty < l.endY roi → HasTile l tx ty

section
variable {w : Width} {l : Layout} {roi : Rect}

theorem readTile_ends (tiles : Tiles) (tx ty : ℕ) :
    Ends (readTile w l tiles tx ty) (fun _ => HasTile l tx ty ∧ l.tileSize ≤ tileBlock w l) fun e =>
      (e.Thrown ∧ (HasTile l tx ty → ∃ i j, tiles i j = none)) ∨
        (e = .overrun ∧ HasTile l tx ty ∧ tileBlock w l < l.tileSize) := by
  unfold readTile
  dsimp only
  by_cases ho : l.dims.w ≤ u32 (tx * l.tileWidth) ∨ l.dims.h ≤ u32 (ty * l.tileLength)
  · rw [if_pos ho]
    exact .inl ⟨trivial, fun ht => absurd ho (by have := ht.1; have := ht.2; omega)⟩
  · have ht : HasTile l tx ty := ⟨by omega, by omega⟩
    rw [if_neg ho]
    split
    · next hn => exact .inl ⟨trivial, fun _ => ⟨_, _, hn⟩⟩
    · split_ifs with hb
      · exact .inr ⟨rfl, ht, hb⟩
      · exact ⟨ht, not_lt.1 hb⟩

theorem placeTile_bounds {dx dy : ℕ} (tile : Buffer UInt8) {inbuf : Buffer UInt8}
    (hsz : inbuf.size = w.bytes * u32 (roi.dims.w * roi.dims.h * l.nc)) :
    Ends (placeTile w l roi dx dy tile inbuf) (fun out => out.size = w.bytes * u32 (roi.dims.w * roi.dims.h * l.nc))
      fun e => e = .overrun ∧ ¬ roi.dims.w * roi.dims.h * l.nc < 2 ^ 32 := by
  set size := w.bytes * u32 (roi.dims.w * roi.dims.h * l.nc) with hdf
  refine forCount_ends (fun _ (buf : Buffer UInt8) => buf.size = size) hsz fun tileX buf _ hb => ?_
  refine forCount_ends (fun _ (buf : Buffer UInt8) => buf.size = size) hb fun tileY buf _ hb => ?_
  dsimp only
  split_ifs with hin
  · refine forCount_ends (fun _ (buf : Buffer UInt8) => buf.size = size) hb fun c buf hc hb => ?_
    refine Buffer.copy_ends (fun _ => hb) fun hsh => ⟨rfl, fun hs => hsh.not_ge ?_⟩
    have hd := index_lt hin.1 hin.2 hc
    unfold index at hd
    rw [hb, hdf, u32_of_lt hs, u32_of_lt (hd.trans hs), ← Nat.mul_succ]
    exact Nat.mul_le_mul_left _ hd
  · exact hb

theorem readTiledData_ends (h : Tiled l) (hc : l.CountFits) (tiles : Tiles) :
    Ends (readTiledData w l tiles roi)
      (fun out => out.size = w.bytes * u32 (roi.dims.w * roi.dims.h * l.nc) ∧ AllTiles l roi) fun e =>
        (e.Thrown ∧ (AllTiles l roi → ∃ i j, tiles i j = none)) ∨
          (e = .overrun ∧ ((FirstTile l roi ∧ tileBlock w l < l.tileSize) ∨
            ¬ roi.dims.w * roi.dims.h * l.nc < 2 ^ 32)) := by
  set size := w.bytes * u32 (roi.dims.w * roi.dims.h * l.nc) with hd
  rw [readTiledData_eq h hc]
  -- the invariant of each loop: the tiles that have been read are there, and there was room for them
  refine (forRange_ends (fun ty (buf : Buffer UInt8) => buf.size = size ∧
    ∀ tx, l.startX roi ≤ tx → tx < l.endX roi → ∀ ty', l.startY roi ≤ ty' → ty' < ty →
      HasTile l tx ty' ∧ l.tileSize ≤ tileBlock w l) ⟨rfl, fun _ _ _ _ _ _ => by omega⟩ ?_).imp
    fun out ho => ⟨ho.1, fun tx hl hx ty hlo hy => (ho.2 tx hl hx ty hlo (by omega)).1⟩
  rintro ty buf hlo hhi ⟨hbu, ha⟩
  refine (forRange_ends (fun tx (buf : Buffer UInt8) => buf.size = size ∧
    ∀ tx', l.startX roi ≤ tx' → tx' < tx → HasTile l tx' ty ∧ l.tileSize ≤ tileBlock w l)
    ⟨hbu, fun _ _ _ => by omega⟩ ?_).imp fun out ho => ⟨ho.1, fun tx hl hx ty' hL' hy' => ?_⟩
  swap
  · rcases Nat.lt_succ_iff_lt_or_eq.1 hy' with hlt | rfl
    · exact ha tx hl hx ty' hL' hlt
    · exact ho.2 tx hl (by omega)
  rintro tx buf hl hh ⟨hbu, hbf⟩
  have hr : Ends (readTile w l tiles tx ty) (fun _ => HasTile l tx ty ∧ l.tileSize ≤ tileBlock w l) fun e =>
      (e.Thrown ∧ (AllTiles l roi → ∃ i j, tiles i j = none)) ∨
        (e = .overrun ∧ ((FirstTile l roi ∧ tileBlock w l < l.tileSize) ∨
          ¬ roi.dims.w * roi.dims.h * l.nc < 2 ^ 32)) := by
    refine (readTile_ends tiles tx ty).mono (fun _ => id) fun e he => he.imp (fun he => ⟨he.1, fun hal => ?_⟩) ?_
    · exact he.2 (hal tx hl (by omega) ty hlo (by omega))
    · rintro ⟨rfl, ht, hb⟩
      -- there was room for the tiles before this one, so it is the first
      obtain rfl : l.startX roi = tx := by
        by_contra hne
        exact absurd (hbf _ le_rfl (by omega)).2 hb.not_ge
      obtain rfl : l.startY roi = ty := by
        by_contra hne
        exact absurd (ha _ le_rfl (by omega) _ le_rfl (by omega)).2 hb.not_ge
      exact ⟨rfl, .inl ⟨⟨by omega, by omega, ht⟩, hb⟩⟩
  refine hr.bind fun tile ht => (placeTile_bounds tile hbu).mono (fun out ho => ⟨ho, fun tx' hl' hx' => ?_⟩)
    fun e he => .inr ⟨he.1, .inr he.2⟩
  rcases Nat.lt_succ_iff_lt_or_eq.1 hx' with hlt | rfl
  · exact hbf tx' hl' hlt
  · exact ht

theorem tileSize_le_iff (h : Tiled l) :
    l.tileSize ≤ tileBlock w l ↔ l.tileSize < 2 ^ 32 ∧ (l.bps = 16 → w = .word) := by
  have hp : 0 < l.tileWidth * l.tileLength * l.nc := Nat.mul_pos (Nat.mul_pos h.width h.length) l.nc_pos
  have hs := tileSize_eq h
  rw [tileBlock, u32]
  rcases h.bps with h8 | h16
  · rw [if_pos h8]
    cases w <;> simp [Width.bytes, h8] <;> omega
  · rw [width_bytes_of_eq h16] at hs
    rw [if_neg (by omega)]
    cases w <;> simp [Width.bytes, h16] <;> omega

theorem readTiledData_overrun (h : Tiled l) (hc : l.CountFits) (hf : FirstTile l roi)
    (hb : tileBlock w l < l.tileSize) (tiles : ℕ → ℕ → ℕ → UInt8) :
    readTiledData w l (fun i j => some (tiles i j)) roi = .error .overrun := by
  obtain ⟨hx, hy, ht⟩ := hf
  rw [readTiledData_eq h hc]
  refine forRange_error (by omega) ?_
  refine forRange_error (by omega) ?_
  have hr : readTile w l (fun i j => some (tiles i j)) (l.startX roi) (l.startY roi) = .error .overrun := by
    have := ht.1
    have := ht.2
    unfold readTile
    dsimp only
    rw [if_neg (by omega), if_pos hb]
  rw [hr, error_bind]

end

/-! ### Staying in the blocks -/

/-- Reading throws, or copies just the region. -/
def Stays (x : Except Failure Loaded) : Prop :=
  Ends x (fun img => img.copied = img.width.bytes * (img.dims.w * img.dims.h * img.nc) ∧ img.pixels.size = img.copied)
    Failure.Thrown

/-- Scanlines of `nc` channels of type `w`. -/
structure ScansAgree (w : Width) (l : Layout) (nc : ℕ) (roi : Rect) : Prop where
  channels : l.nc = nc
  samples : roi.dims.w * roi.dims.h * l.nc < 2 ^ 32
  scanline : l.scanlineSize < 2 ^ 32
  unpacks : l.LineUnpacks
  sixteen : l.bps = 16 → w = .word
  twelve : l.bps = 12 → w = .word ∨ 2 ^ 31 ≤ l.nc * roi.dims.w

/-- Tiles of `nc` channels of type `w`. -/
structure TilesAgree (w : Width) (l : Layout) (nc : ℕ) (roi : Rect) : Prop where
  tile : FirstTile l roi → l.tileSize < 2 ^ 32 ∧ (l.bps = 16 → w = .word)
  channels : AllTiles l roi → l.nc = nc ∧ roi.dims.w * roi.dims.h * l.nc < 2 ^ 32

/-- A directory agrees with the first, or is refused. -/
def Agrees (t : Tiff) (level : ℕ) (roi : Rect) : Prop :=
  ∀ w, sampleWidth t.bps = some w →
    if (t.directory level).IsTiled then
      (t.directory level).CountFits → (t.directory level).bps = 8 ∨ (t.directory level).bps = 16 →
        TilesAgree w (t.directory level) t.first.nc roi
    else ScansAgree w (t.directory level) t.first.nc roi

/-- 32-bit samples, or channels and tiles that agree. -/
def Regular (t : Tiff) (level : ℕ) (roi : Rect) : Prop :=
  roi.dims.w * roi.dims.h * (t.directory level).nc < 2 ^ 32 ∨
    ((t.directory level).nc = t.first.nc ∧ ((t.directory level).IsTiled → AllTiles (t.directory level) roi))

section
variable {t : Tiff} {junk : UInt8 × UInt8} {level : ℕ} {roi : Rect} {w : Width}

theorem load_stays (hw : sampleWidth t.bps = some w) (content : Content) :
    Stays (load t junk content level roi) ↔
      Ends (pixdata w (t.directory level) junk content roi)
        (fun data => data.size = w.bytes * (roi.dims.w * roi.dims.h * t.first.nc) ∧ data.size < 2 ^ 64)
        Failure.Thrown := by
  have hs : w.bytes * roi.dims.w * roi.dims.h * t.first.nc =
      w.bytes * (roi.dims.w * roi.dims.h * t.first.nc) := by ring
  simp only [load, hw, Stays, hs]
  cases pixdata w (t.directory level) junk content roi with
  | error e => simp
  | ok data =>
    simp only [ok_bind, ends_ok]
    by_cases hr : 0 + data.size ≤ w.bytes * (roi.dims.w * roi.dims.h * t.first.nc) % 2 ^ 64
    · rw [Buffer.copy_of_le _ hr]
      simp only [ok_bind, ends_pure, Buffer.blit_size, Buffer.const_size]
      generalize w.bytes * (roi.dims.w * roi.dims.h * t.first.nc) = size at *
      omega
    · rw [Buffer.copy_of_lt _ (not_le.1 hr)]
      simp only [error_bind, ends_error, not_thrown_overrun, false_iff]
      generalize w.bytes * (roi.dims.w * roi.dims.h * t.first.nc) = size at *
      omega

theorem channels_of_size {a nc nc' : ℕ} (ha : 0 < a) (h : u32 (a * nc) = a * nc') (hr : a * nc < 2 ^ 32 ∨ nc = nc') :
    nc = nc' ∧ a * nc < 2 ^ 32 := by
  have hlt : u32 (a * nc) < 2 ^ 32 := Nat.mod_lt _ (by decide)
  rcases hr with hf | rfl
  · rw [u32_of_lt hf] at h
    exact ⟨Nat.eq_of_mul_eq_mul_left ha h, hf⟩
  · exact ⟨rfl, h ▸ hlt⟩

theorem scans_stay_iff (w : Width) (junk : UInt8 × UInt8) {l : Layout} {nc : ℕ} (hc : l.planar = .contig)
    (hin : Inside l roi) (hrg : roi.dims.w * roi.dims.h * l.nc < 2 ^ 32 ∨ l.nc = nc) :
    (∀ scans, Ends (readStandardData w l junk scans roi)
      (fun data => data.size = w.bytes * (roi.dims.w * roi.dims.h * nc) ∧ data.size < 2 ^ 64) Failure.Thrown) ↔
      ScansAgree w l nc roi := by
  have ha : 0 < roi.dims.w * roi.dims.h := Nat.mul_pos roi.dims.w_pos roi.dims.h_pos
  have hb : w.bytes ≤ 2 := by cases w <;> decide
  constructor
  · intro h
    -- if every scanline can be read, nothing is thrown
    have hen : Ends (readStandardData w l junk (fun _ _ => some fun _ => 0) roi) _ fun _ => False :=
      ((h _).and (readStandardData_ends hc hin _)).mono (fun _ => id) fun e he => by
        rcases he with ⟨ht, ⟨-, i, hn⟩ | ⟨rfl, -⟩⟩
        · cases hn
        · exact ht
    obtain ⟨out, -, ⟨hsz, -⟩, ho, hr⟩ := hen.exists_ok
    rw [ho] at hsz
    obtain ⟨hnc, hs⟩ := channels_of_size ha (Nat.eq_of_mul_eq_mul_left w.bytes_pos hsz) hrg
    obtain ⟨hl, hu, h16, h12⟩ := (rowsFit_iff hc hin hs).1 hr
    exact ⟨hnc, hs, hl, hu, h16, h12⟩
  · rintro ⟨rfl, hs, hl, hu, h16, h12⟩ scans
    have hr := (rowsFit_iff hc hin hs).2 ⟨hl, hu, h16, h12⟩
    refine (readStandardData_ends hc hin scans).mono (fun out ho => ?_) fun e he => ?_
    · rw [ho.1, u32_of_lt hs]
      exact ⟨rfl, (Nat.mul_le_mul hb hs.le).trans_lt (by decide)⟩
    · exact he.elim (fun h => h.1) fun h => absurd hr h.2

theorem tiles_stay_iff {l : Layout} {nc : ℕ} (h : Tiled l) (hc : l.CountFits)
    (hr : roi.dims.w * roi.dims.h * l.nc < 2 ^ 32 ∨ (l.nc = nc ∧ AllTiles l roi)) :
    (∀ tiles, Ends (readTiledData w l tiles roi)
      (fun data => data.size = w.bytes * (roi.dims.w * roi.dims.h * nc) ∧ data.size < 2 ^ 64) Failure.Thrown) ↔
      TilesAgree w l nc roi := by
  have har : 0 < roi.dims.w * roi.dims.h := Nat.mul_pos roi.dims.w_pos roi.dims.h_pos
  have hby : w.bytes ≤ 2 := by cases w <;> decide
  constructor
  · intro hst
    refine ⟨fun hf => ?_, fun hal => ?_⟩
    · by_contra hnt
      have hb := not_le.1 (mt (tileSize_le_iff h).1 hnt)
      have hen := hst fun _ _ => some fun _ => 0
      rw [readTiledData_overrun h hc hf hb fun _ _ _ => 0] at hen
      exact hen
    · have hen : Ends (readTiledData w l (fun _ _ => some fun _ => 0) roi) _ fun _ => False :=
        ((hst _).and (readTiledData_ends h hc _)).mono (fun _ => id) fun e he => by
          rcases he with ⟨ht, ⟨-, hn⟩ | ⟨rfl, -⟩⟩
          · obtain ⟨i, j, hn⟩ := hn hal
            cases hn
          · exact ht
      obtain ⟨out, -, ⟨hsz, -⟩, ho, -⟩ := hen.exists_ok
      rw [ho] at hsz
      exact channels_of_size har (Nat.eq_of_mul_eq_mul_left w.bytes_pos hsz) (hr.imp_right And.left)
  · intro ha tiles
    have hs : roi.dims.w * roi.dims.h * l.nc < 2 ^ 32 := hr.elim id fun hal => (ha.channels hal.2).2
    refine (readTiledData_ends h hc tiles).mono (fun out ho => ?_) fun e he => ?_
    · obtain ⟨rfl, -⟩ := ha.channels ho.2
      rw [ho.1, u32_of_lt hs]
      exact ⟨rfl, (Nat.mul_le_mul hby hs.le).trans_lt (by decide)⟩
    · rcases he with ⟨ht, -⟩ | ⟨-, ⟨hf, hb⟩ | hl⟩
      · exact ht
      · exact absurd ((tileSize_le_iff h).2 (ha.tile hf)) hb.not_ge
      · exact absurd hs hl

theorem readTiledData_thrown {l : Layout} (ht : l.IsTiled) (hn : ¬ (l.CountFits ∧ (l.bps = 8 ∨ l.bps = 16)))
    (tiles : Tiles) {Q : Buffer UInt8 → Prop} : Ends (readTiledData w l tiles roi) Q Failure.Thrown := by
  rw [readTiledData, if_neg (by have := ht.1; have := ht.2; omega)]
  by_cases hc : l.CountFits
  · rw [if_neg (not_not.2 hc), if_pos (by have := mt (And.intro hc) hn; omega)]
    trivial
  · rw [if_pos hc]
    trivial

theorem load_stays_iff (junk : UInt8 × UInt8) (hcn : (t.directory level).planar = .contig)
    (hin : Inside (t.directory level) roi)
    (hr : Regular t level roi) : (∀ content, Stays (load t junk content level roi)) ↔ Agrees t level roi := by
  cases hw : sampleWidth t.bps with
  | none => simp [load, hw, Stays, Agrees]
  | some w =>
    simp only [load_stays hw, Agrees, hw, Option.some.injEq, forall_eq']
    unfold pixdata
    split_ifs with ht
    · by_cases hch : (t.directory level).CountFits ∧ ((t.directory level).bps = 8 ∨ (t.directory level).bps = 16)
      · obtain ⟨hc, hb⟩ := hch
        have h : Tiled (t.directory level) :=
          ⟨hcn, hb, Nat.pos_of_ne_zero ht.1, Nat.pos_of_ne_zero ht.2⟩
        have hi := tiles_stay_iff (w := w) h hc (hr.imp_right fun hal => ⟨hal.1, hal.2 ht⟩)
        exact ⟨fun hs _ _ => hi.1 fun tiles => hs ⟨fun _ _ => none, tiles⟩,
          fun ha content => hi.2 (ha hc hb) content.tiles⟩
      · exact ⟨fun _ hc hb => absurd ⟨hc, hb⟩ hch,
          fun _ content => readTiledData_thrown ht hch content.tiles⟩
    · have hi := scans_stay_iff w junk hcn hin (hr.imp_right And.left)
      exact ⟨fun hs => hi.1 fun scans => hs ⟨scans, fun _ _ => none⟩,
        fun ha content => hi.2 ha content.scans⟩

theorem directory_mem (t : Tiff) (level : ℕ) : t.directory level ∈ t.first :: t.rest := by
  rw [Tiff.directory, List.getD_eq_getElem?_getD]
  cases hg : (t.first :: t.rest)[level]? with
  | none => exact List.mem_cons_self
  | some l => exact List.mem_of_getElem? hg

end

/-- **Reading a file of contiguous planes stays in its blocks**, whatever the directories hold, exactly if the
directory that is picked for the size agrees with the first one, and the size can be computed. -/
theorem read_stays_iff (t : Tiff) (junk : UInt8 × UInt8) (region : Option Region) (size : Option SizeParts)
    (hcontig : ∀ l ∈ t.first :: t.rest, l.planar = .contig)
    (hreg : ∀ level roi, t.locate region size = .ok (level, roi) → Regular t level roi) :
    (∀ contents, Stays (read t junk contents region size)) ↔
      t.SizeDefined size ∧ ∀ level roi, t.locate region size = .ok (level, roi) → Agrees t level roi := by
  have he := locate_ends t region size
  unfold read
  cases hl : t.locate region size with
  | error e =>
    rw [hl, ends_error] at he
    simp only [error_bind]
    exact ⟨fun h => ⟨he.1 (h fun _ => ⟨fun _ _ => none, fun _ _ => none⟩), by simp⟩, fun h _ => he.2 h.1⟩
  | ok p =>
    obtain ⟨level, roi⟩ := p
    obtain ⟨hd, hin⟩ := he.of_ok hl
    have hi := load_stays_iff junk (hcontig _ (directory_mem t level)) hin (hreg level roi hl)
    constructor
    · refine fun hs => ⟨hd, ?_⟩
      rintro _ _ ⟨⟩
      exact hi.1 fun content => hs fun _ => content
    · exact fun ha contents => hi.2 (ha.2 level roi rfl) _

/-- `red:1`. -/
def halved : SizeParts where
  kind := .reduce
  upscaling := false
  percent := 0
  reduce := 1
  nx := 0
  ny := 0

/-- A photograph with a level of half the size. -/
def pyramid : Tiff where
  first := tiledPhoto
  rest := [{ tiledPhoto with
    dims := { w := 520, h := 390 }, nx_lt := by decide, ny_lt := by decide, scanlineSize := 1560, numberOfTiles := 6
    scanline_bytes := by decide, tiles_counted := by decide }]

theorem pyramid_stays : pyramid.locate none (some halved) = .ok (1, ⟨0, 0, { w := 520, h := 390 }⟩) ∧
      ∀ contents, Stays (read pyramid (0, 0) contents none (some halved)) := by
  have hl : pyramid.locate none (some halved) = .ok (1, ⟨0, 0, { w := 520, h := 390 }⟩) := by decide +kernel
  refine ⟨hl, (read_stays_iff pyramid (0, 0) none (some halved) ?_ ?_).2 ?_⟩
  · simp [pyramid, tiledPhoto, photo]
  · intro level roi h
    cases hl.symm.trans h
    exact .inl (by decide)
  · refine ⟨((locate_ends _ _ _).of_ok hl).1, fun level roi h => ?_⟩
    cases hl.symm.trans h
    rintro w ⟨⟩ _ _
    exact ⟨fun _ => ⟨by decide +kernel, by decide⟩, fun _ => ⟨rfl, by decide⟩⟩

/-- One gray row of eight bits. -/
def grayRow (w : ℕ) (hpos : 0 < w) (hlt : w < 2 ^ 32) : Layout where
  dims := ⟨w, 1, hpos, Nat.one_pos⟩
  nx_lt := hlt
  ny_lt := by norm_num
  nc := 1
  nc_pos := Nat.one_pos
  bpsTag := some 8
  photo := .minIsBlack
  planar := .contig
  compressed := false
  scanlineSize := w
  scanline_bytes := by
    simp only [packedBytes, Planar.channels, Option.getD_some]
    omega
  tile_bytes := (Nat.mul_zero _).symm
  tiles_counted := by simp [tileCount]

/-- A gray picture of two pixels. -/
def twoGray : Layout := grayRow 2 Nat.two_pos (by decide)

/-- The same at half the size. -/
def oneGray : Layout := grayRow 1 Nat.one_pos (by decide)

/-- Gray, with a smaller level in color. -/
def grayThenColor : Tiff where
  first := twoGray
  rest := [{ oneGray with
    nc := 3, nc_pos := photo.nc_pos, photo := .other, scanlineSize := 3
    scanline_bytes := by decide, tile_bytes := by decide, tiles_counted := by decide }]

/-- Gray, with a smaller level of sixteen bits. -/
def eightThenSixteen : Tiff where
  first := twoGray
  rest := [{ oneGray with
    bpsTag := some 16, scanlineSize := 2, scanline_bytes := by decide, tile_bytes := by decide }]

theorem level_overruns :
    ¬ Stays (read grayThenColor (0, 0) (fun _ => ⟨fun _ _ => some fun _ => 7, fun _ _ => none⟩) none (some halved)) ∧
    ¬ Stays (read eightThenSixteen (0, 0) (fun _ => ⟨fun _ _ => some fun _ => 7, fun _ _ => none⟩) none
      (some halved)) := by
  have hc : grayThenColor.locate none (some halved) = .ok (1, ⟨0, 0, { w := 1, h := 1 }⟩) := by decide +kernel
  have hs : eightThenSixteen.locate none (some halved) = .ok (1, ⟨0, 0, { w := 1, h := 1 }⟩) := by
    decide +kernel
  rw [read, hc, read, hs]
  exact ⟨id, id⟩

end Sipi.Formats
