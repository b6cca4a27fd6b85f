import Sipi.Geometry.Region
import Sipi.Theory.Buffers

/-!
# Reading a TIFF by scanlines

`read_standard_data<T>` of `formats/SipiIOTiff.cpp` reads a region of an image that is not tiled into a block of
elements of type `T`.

## Honest scope

A plane has no subsampled channels. Values of twelve bits are modelled but nothing is said about them here.
-/

namespace Sipi.Formats

open Sipi.Theory Sipi.Geometry

/-! ### Numbers, errors and layouts -/

/-- A number of type `uint32_t`. -/
def u32 (n : ℕ) : ℕ := n % 2 ^ 32

theorem u32_of_lt {n : ℕ} (h : n < 2 ^ 32) : u32 n = n := Nat.mod_eq_of_lt h

/-- What the reader throws. -/
inductive TiffError where
  | scanline (i : ℕ)
  | noTileSides
  | tileCount
  | tileBits (bps : ℕ)
  | tile (tx ty : ℕ)
  | bits (bps : ℕ)
  | size
  | region
  deriving DecidableEq

/-- How reading fails. -/
inductive Failure where
  | thrown (e : TiffError)
  | overrun
  | overflow
  deriving DecidableEq

/-- The type `T` of an element. -/
inductive Width where
  | byte
  | word
  deriving DecidableEq

/-- `sizeof(T)`. -/
def Width.bytes : Width → ℕ
  | .byte => 1
  | .word => 2

theorem Width.bytes_pos (w : Width) : 0 < w.bytes := by cases w <;> decide

/-- A value of type `T`. -/
abbrev Width.Sample (w : Width) : Type := BitVec (8 * w.bytes)

/-- The photometric interpretation. -/
inductive Photometric where
  | minIsBlack
  | minIsWhite
  | palette
  | other
  deriving DecidableEq

/-- The planar configuration. -/
inductive Planar where
  | contig
  | separate
  deriving DecidableEq

/-- The samples of a pixel in a scanline or tile. -/
def Planar.channels (nc : ℕ) : Planar → ℕ
  | .contig => nc
  | .separate => 1

/-- The bytes of a row of packed samples. -/
def packedBytes (columns channels bits : ℕ) : ℕ := (columns * channels * bits + 7) / 8

/-- The tiles of all planes, in 32 bits. -/
def tileCount (dims : Dims) (tileWidth tileLength planes : ℕ) : ℕ :=
  let n := (dims.w ⌈/⌉ tileWidth) * (dims.h ⌈/⌉ tileLength) * planes
  if n < 2 ^ 32 then n else 0

/-- The tags, and what `libtiff` computes from them. -/
structure Layout where
  dims : Dims
  nx_lt : dims.w < 2 ^ 32 := by decide
  ny_lt : dims.h < 2 ^ 32 := by decide
  nc : ℕ
  nc_pos : 0 < nc := by decide
  bpsTag : Option ℕ
  photo : Photometric
  planar : Planar
  compressed : Bool
  tileWidth : ℕ := 0
  tileLength : ℕ := 0
  scanlineSize : ℕ
  tileSize : ℕ := 0
  numberOfTiles : ℕ := 0
  scanline_bytes : scanlineSize = packedBytes dims.w (planar.channels nc) (bpsTag.getD 8) := by rfl
  tile_bytes : tileSize = packedBytes tileWidth (planar.channels nc) (bpsTag.getD 8) * tileLength := by rfl
  tiles_counted : numberOfTiles = tileCount dims tileWidth tileLength (nc / planar.channels nc) := by rfl

namespace Layout

/-- The bits of a sample, eight without the tag. -/
def bps (l : Layout) : ℕ := l.bpsTag.getD 8

/-- `psiz`: the bytes of an unpacked sample. -/
def psiz (l : Layout) : ℕ := if l.bps ≤ 8 then 1 else 2

/-- The samples of a pixel in one scanline. -/
def lineChannels (l : Layout) : ℕ := l.planar.channels l.nc

theorem lineChannels_of_contig {l : Layout} (h : l.planar = .contig) : l.lineChannels = l.nc := by
  rw [lineChannels, h, Planar.channels]

end Layout

/-- An element of type `T`, as it lies in memory. -/
def element (w : Width) (v : ℕ) : Buffer UInt8 := ⟨w.bytes, fun b => UInt8.ofNat (v / 256 ^ b)⟩

/-- The loop that unpacks; its counter can wrap. -/
def unpack (w : Width) (per len : ℕ) (value : ℕ → ℕ → ℕ) : Except Failure (Buffer UInt8) :=
  if 2 ^ 32 - per < len then .error .overrun
  else
    forRange (fun g => forRange (fun k out =>
      if per * g + k < len then out.copy .overrun (w.bytes * (per * g + k)) (element w (value g k)) 0 w.bytes
      else .ok out) per 0) ((len + (per - 1)) / per) 0 (.const (w.bytes * len) 0)

/-- `one2eight`: the first bit is the highest. -/
def one2eight (w : Width) (scan : Buffer UInt8) (len : ℕ) (black white : UInt8) : Except Failure (Buffer UInt8) :=
  unpack w 8 len fun g k => (if (0x80 >>> UInt8.ofNat k) &&& scan.get g ≠ 0 then white else black).toNat

/-- `four2eight`: two samples to a byte. -/
def four2eight (w : Width) (scan : Buffer UInt8) (len : ℕ) (palette : Bool) : Except Failure (Buffer UInt8) :=
  unpack w 2 len fun g k =>
    let nibble := if k = 0 then (scan.get g).toNat / 16 else (scan.get g).toNat % 16
    if palette then nibble else nibble * 16

/-- `twelve2sixteen`: two samples to three bytes. -/
def twelve2sixteen (w : Width) (scan : Buffer UInt8) (len : ℕ) (palette : Bool) : Except Failure (Buffer UInt8) :=
  unpack w 2 len fun g k =>
    let a := (scan.get (3 * g)).toNat
    let b := (scan.get (3 * g + 1)).toNat
    let c := (scan.get (3 * g + 2)).toNat
    let sample := if k = 0 then a * 16 + b / 16 else b % 16 * 256 + c
    if palette then sample else sample * 16

/-- The elements before `q` are unpacked. -/
structure Unpacked (w : Width) (per len : ℕ) (value : ℕ → ℕ → ℕ) (q : ℕ) (out : Buffer UInt8) : Prop where
  size : out.size = w.bytes * len
  get : ∀ p < q, p < len → ∀ b < w.bytes, out.get (w.bytes * p + b) = UInt8.ofNat (value (p / per) (p % per) / 256 ^ b)
  rest : ∀ p, w.bytes * len ≤ p → out.get p = 0

theorem Unpacked.blit {w : Width} {per len g k : ℕ} {value : ℕ → ℕ → ℕ} {out : Buffer UInt8} (hk : k < per)
    (h : Unpacked w per len value (per * g + k) out) (hlt : per * g + k < len) :
    Unpacked w per len value (per * g + k + 1)
      (out.blit (w.bytes * (per * g + k)) (element w (value g k)) 0 w.bytes) where
  size := h.size
  get p hp hl b hb := by
    rcases Nat.lt_succ_iff_lt_or_eq.1 hp with hbf | rfl
    · rw [Buffer.get_blit_of_ne _ _ _ hbf.ne hb]
      exact h.get p hbf hl b hb
    · have hd : (per * g + k) / per = g := by
        rw [Nat.mul_add_div (by omega), Nat.div_eq_of_lt hk, Nat.add_zero]
      have hm : (per * g + k) % per = k := by rw [Nat.mul_add_mod, Nat.mod_eq_of_lt hk]
      rw [Buffer.get_blit_of_lt _ _ _ _ hb, hd, hm, element, Nat.zero_add]
  rest p hp := by
    have he : w.bytes * (per * g + k) + w.bytes ≤ w.bytes * len := by
      rw [← Nat.mul_succ]
      exact Nat.mul_le_mul_left _ hlt
    rw [Buffer.get_blit_of_disjoint _ _ _ _ _ (.inr (by omega))]
    exact h.rest p hp

theorem unpack_ends (w : Width) {per len : ℕ} (hpr : 0 < per) (hl : len + per ≤ 2 ^ 32) (value : ℕ → ℕ → ℕ) :
    Ends (unpack w per len value) (Unpacked w per len value len) fun _ => False := by
  rw [unpack, if_neg (by omega)]
  have hs : Unpacked w per len value 0 (.const (w.bytes * len) 0) := ⟨rfl, nofun, fun _ _ => rfl⟩
  have hgr : len ≤ per * ((len + (per - 1)) / per) := by
    have := Nat.div_add_mod (len + (per - 1)) per
    have := Nat.mod_lt (len + (per - 1)) hpr
    omega
  refine Ends.mono (Q := Unpacked w per len value (per * ((len + (per - 1)) / per))) ?_
    (fun out h => ⟨h.size, fun p hp => h.get p (by omega), h.rest⟩) fun _ => id
  refine forCount_ends (fun g => Unpacked w per len value (per * g)) hs fun g out _ ho => ?_
  have hg : Ends (forRange (fun k out =>
      if per * g + k < len then out.copy Failure.overrun (w.bytes * (per * g + k)) (element w (value g k)) 0 w.bytes
      else .ok out) per 0 out) (Unpacked w per len value (per * g + per)) fun _ => False := by
    refine forCount_ends (fun k => Unpacked w per len value (per * g + k)) ho fun k out hk ho => ?_
    split_ifs with hlt
    · have hr : w.bytes * (per * g + k) + w.bytes ≤ out.size := by
        rw [ho.size, ← Nat.mul_succ]
        exact Nat.mul_le_mul_left _ hlt
      rw [Buffer.copy_of_le _ hr]
      exact ho.blit hk hlt
    · exact ⟨ho.size, fun p hp hpl => ho.get p (by omega) hpl, ho.rest⟩
  rwa [← Nat.mul_succ] at hg

/-! ### Reading -/

/-- The bytes of scanline `i` of plane `c`. -/
abbrev Scans := ℕ → ℕ → Option (ℕ → UInt8)

/-- `TIFFReadScanline` into a block of `sll` bytes. -/
def readScanline (l : Layout) (scans : Scans) (i c : ℕ) : Except Failure (Buffer UInt8) :=
  match scans i c with
  | none => .error (.thrown (.scanline i))
  | some bytes =>
    if u32 l.scanlineSize < l.scanlineSize then .error .overrun else .ok ⟨u32 l.scanlineSize, bytes⟩

/-- The part of a row that is copied. -/
structure Part where
  src : Buffer UInt8
  start : ℕ
  count : ℕ

/-- `black` and `white`, else `junk`. -/
def blackWhite (junk : UInt8 × UInt8) : Photometric → UInt8 × UInt8
  | .minIsBlack => (0x00, 0xff)
  | .minIsWhite => (0xff, 0x00)
  | .palette => junk
  | .other => junk

/-- The `switch (bps)`: what is copied of a scanline. -/
def rowPart (w : Width) (l : Layout) (junk : UInt8 × UInt8) (n : ℕ) (roi : Rect) (scan : Buffer UInt8) :
    Except Failure (Option Part) :=
  let len := u32 (n * l.dims.w)
  let palette : Bool := l.photo = .palette
  match l.bps with
  | 1 => (one2eight w scan len (blackWhite junk l.photo).1 (blackWhite junk l.photo).2).map fun line =>
      some ⟨line, w.bytes * u32 (n * roi.x), u32 (n * roi.dims.w)⟩
  | 4 => (four2eight w scan len palette).map fun line => some ⟨line, w.bytes * u32 (n * roi.x), u32 (n * roi.dims.w)⟩
  | 8 => .ok (some ⟨scan, u32 (n * roi.x), u32 (n * roi.dims.w)⟩)
  -- with compression the offset is in bytes, though the pointer is to elements
  | 12 => (twelve2sixteen w scan len palette).map fun line =>
      some ⟨line, w.bytes * u32 (n * roi.x * if l.compressed then l.psiz else 1), u32 (n * roi.dims.w * l.psiz)⟩
  | 16 => .ok (some ⟨scan, u32 (n * roi.x * l.psiz), u32 (n * roi.dims.w * l.psiz)⟩)
  | _ => .ok none

/-- One row, copied to element `dest` of the block. -/
def copyRow (w : Width) (l : Layout) (junk : UInt8 × UInt8) (n : ℕ) (roi : Rect) (dest : ℕ)
    (scan inbuf : Buffer UInt8) : Except Failure (Buffer UInt8) := do
  match ← rowPart w l junk n roi scan with
  | some part => inbuf.copy .overrun (w.bytes * dest) part.src part.start part.count
  | none => return inbuf

/-- `separateToContig`: planes are interleaved. -/
def separateToContig (w : Width) (inbuf : Buffer UInt8) (nx ny nc sll : ℕ) : Except Failure (Buffer UInt8) :=
  forRange (fun c => forRange (fun y => forRange (fun x out =>
    out.copy .overrun (w.bytes * u32 (nc * (y * nx + x) + c)) inbuf (w.bytes * u32 (c * ny * sll + y * nx + x)) w.bytes)
    nx 0) ny 0) nc 0 (.const (w.bytes * u32 (nc * ny * nx)) 0)

/-- The scanlines of plane `c` that are read. -/
def readRows (w : Width) (l : Layout) (junk : UInt8 × UInt8) (scans : Scans) (roi : Rect) (n c : ℕ) (dest : ℕ → ℕ)
    (count : ℕ) (inbuf : Buffer UInt8) : Except Failure (Buffer UInt8) :=
  if l.compressed then
    forRange (fun i buf => do
      let scan ← readScanline l scans i c
      if roi.y ≤ i ∧ i < u32 (roi.y + roi.dims.h) then copyRow w l junk n roi (dest i) scan buf else return buf)
      l.dims.h 0 inbuf
  else
    forRange (fun i buf => do
      let scan ← readScanline l scans i c
      copyRow w l junk n roi (dest i) scan buf) count roi.y inbuf

/-- Where row `i` of a contiguous image is copied to. -/
def contigDest (l : Layout) (roi : Rect) (i : ℕ) : ℕ := u32 (l.nc * (i - roi.y) * roi.dims.w)

/-- Where row `i` of any plane is copied to. -/
def planeDest (l : Layout) (roi : Rect) (i : ℕ) : ℕ := u32 (l.nc * roi.dims.w) + roi.dims.h + u32 (i * roi.dims.w)

theorem planeDest_pos (l : Layout) (roi : Rect) (i : ℕ) : planeDest l roi i ≠ 0 := by
  have := roi.dims.h_pos
  unfold planeDest
  omega

/-- The rows of plane `c`. -/
def readPlane (w : Width) (l : Layout) (junk : UInt8 × UInt8) (scans : Scans) (roi : Rect) (c : ℕ) :
    Buffer UInt8 → Except Failure (Buffer UInt8) :=
  readRows w l junk scans roi 1 c (planeDest l roi) (roi.dims.h - roi.y)

/-- `read_standard_data`. -/
def readStandardData (w : Width) (l : Layout) (junk : UInt8 × UInt8) (scans : Scans) (roi : Rect) :
    Except Failure (Buffer UInt8) :=
  let inbuf := Buffer.const (w.bytes * u32 (roi.dims.h * roi.dims.w * l.nc)) 0
  match l.planar with
  | .contig => readRows w l junk scans roi l.nc 0 (contigDest l roi) roi.dims.h inbuf
  | .separate => do
    let planes ← forRange (readPlane w l junk scans roi) l.nc 0 inbuf
    separateToContig w planes roi.dims.w roi.dims.h l.nc roi.dims.w

/-- The samples placed before `q`. -/
structure Interleaved (w : Width) (inbuf : Buffer UInt8) (nx ny nc q : ℕ) (out : Buffer UInt8) : Prop where
  size : out.size = w.bytes * (nx * ny * nc)
  get : ∀ x < nx, ∀ y < ny, ∀ c < nc, c * ny * nx + y * nx + x < q → ∀ b < w.bytes,
    out.get (w.bytes * index nx nc x y c + b) = inbuf.get (w.bytes * (c * ny * nx + y * nx + x) + b)

theorem Interleaved.blit {w : Width} {inbuf out : Buffer UInt8} {nx ny nc x y c : ℕ} (hx : x < nx) (hy : y < ny)
    (hc : c < nc) (h : Interleaved w inbuf nx ny nc (c * ny * nx + y * nx + x) out) :
    Interleaved w inbuf nx ny nc (c * ny * nx + y * nx + x + 1)
      (out.blit (w.bytes * index nx nc x y c) inbuf (w.bytes * (c * ny * nx + y * nx + x)) w.bytes) where
  size := h.size
  get x' hx' y' hy' c' hc' hq b hb := by
    rcases Nat.lt_succ_iff_lt_or_eq.1 hq with hbf | heq
    · have hne : index nx nc x' y' c' ≠ index nx nc x y c := by
        intro hi
        obtain ⟨rfl, rfl, rfl⟩ := index_inj hx' hc' hx hc hi
        exact lt_irrefl _ hbf
      rw [Buffer.get_blit_of_ne _ _ _ hne hb]
      exact h.get x' hx' y' hy' c' hc' hbf b hb
    · -- the place in the planes determines the sample
      have hp : index nx 1 x' (c' * ny + y') 0 = index nx 1 x (c * ny + y) 0 := by
        simp only [index]
        linarith
      obtain ⟨rfl, hr, -⟩ := index_inj hx' Nat.one_pos hx Nat.one_pos hp
      have hr' : index ny 1 y' c' 0 = index ny 1 y c 0 := by
        simp only [index]
        omega
      obtain ⟨rfl, rfl, -⟩ := index_inj hy' Nat.one_pos hy Nat.one_pos hr'
      rw [Buffer.get_blit_of_lt _ _ _ _ hb]

theorem separateToContig_ends (w : Width) (inbuf : Buffer UInt8) {nx ny nc : ℕ} (hf : nx * ny * nc < 2 ^ 32) :
    Ends (separateToContig w inbuf nx ny nc nx) (Interleaved w inbuf nx ny nc (nc * ny * nx)) fun _ => False := by
  have hsz : u32 (nc * ny * nx) = nx * ny * nc := by
    rw [show nc * ny * nx = nx * ny * nc by ring, u32_of_lt hf]
  rw [separateToContig, hsz]
  have hs : Interleaved w inbuf nx ny nc (0 * ny * nx) (.const (w.bytes * (nx * ny * nc)) 0) :=
    ⟨rfl, fun x _ y _ c _ hq => absurd hq (by omega)⟩
  refine forCount_ends (fun c => Interleaved w inbuf nx ny nc (c * ny * nx)) hs fun c out hc ho => ?_
  rw [show (c + 1) * ny * nx = c * ny * nx + ny * nx by ring]
  refine forCount_ends (fun y => Interleaved w inbuf nx ny nc (c * ny * nx + y * nx)) (by simpa using ho)
    fun y out hy ho => ?_
  rw [show c * ny * nx + (y + 1) * nx = c * ny * nx + y * nx + nx by ring]
  refine forCount_ends (fun x => Interleaved w inbuf nx ny nc (c * ny * nx + y * nx + x)) ho fun x out hx ho => ?_
  have hi := index_lt hx hy hc
  have hp : c * ny * nx + y * nx + x < 2 ^ 32 := by
    calc c * ny * nx + y * nx + x = (c * ny + y) * nx + x := by ring
      _ < nx * (ny * nc) := place_lt hx (place_lt hy hc)
      _ = nx * ny * nc := by ring
      _ < 2 ^ 32 := hf
  have hr : w.bytes * index nx nc x y c + w.bytes ≤ out.size := by
    rw [ho.size, ← Nat.mul_succ]
    exact Nat.mul_le_mul_left _ hi
  have hd : u32 (nc * (y * nx + x) + c) = index nx nc x y c := u32_of_lt (hi.trans hf)
  rw [hd, u32_of_lt hp, Buffer.copy_of_le _ hr]
  exact ho.blit hx hy hc

/-- The region lies inside of the image. -/
structure Inside (l : Layout) (roi : Rect) : Prop where
  columns : roi.x + roi.dims.w ≤ l.dims.w
  rows : roi.y + roi.dims.h ≤ l.dims.h

section
variable {w : Width} {l : Layout} {junk : UInt8 × UInt8} {scans : Scans} {roi : Rect} {E : Failure → Prop}

theorem readScanline_of_fits {i c : ℕ} {bytes : ℕ → UInt8} (h : scans i c = some bytes)
    (hf : l.scanlineSize < 2 ^ 32) : readScanline l scans i c = .ok ⟨l.scanlineSize, bytes⟩ := by
  simp [readScanline, h, u32_of_lt hf]

theorem readScanline_of_large {i c : ℕ} {bytes : ℕ → UInt8} (h : scans i c = some bytes)
    (hl : 2 ^ 32 ≤ l.scanlineSize) : readScanline l scans i c = .error .overrun := by
  have hlt : u32 l.scanlineSize < l.scanlineSize := (Nat.mod_lt _ (by decide)).trans_le hl
  simp [readScanline, h, hlt]

theorem readScanline_bind {i c : ℕ} {f : Buffer UInt8 → Except Failure (Buffer UInt8)} {Q : Buffer UInt8 → Prop}
    (hr : Ends (readScanline l scans i c) (fun _ => True) E)
    (hf : ∀ scan, readScanline l scans i c = .ok scan → Ends (f scan) Q E) :
    Ends (readScanline l scans i c >>= f) Q E := by
  cases hs : readScanline l scans i c with
  | error e =>
    rw [hs] at hr
    exact hr
  | ok scan => exact hf scan hs

theorem readRows_ends (hin : Inside l roi) {n c count : ℕ} {dest : ℕ → ℕ}
    (ha : l.compressed = true ∨ count = roi.dims.h) (Inv : ℕ → Buffer UInt8 → Prop) {inbuf : Buffer UInt8}
    (h0 : Inv 0 inbuf) (hr : ∀ i < l.dims.h, Ends (readScanline l scans i c) (fun _ => True) E)
    (hst : ∀ y < roi.dims.h, ∀ scan buf, readScanline l scans (roi.y + y) c = .ok scan → Inv y buf →
      Ends (copyRow w l junk n roi (dest (roi.y + y)) scan buf) (Inv (y + 1)) E) :
    Ends (readRows w l junk scans roi n c dest count inbuf) (Inv roi.dims.h) E := by
  have hrw := hin.rows
  unfold readRows
  split_ifs with hc
  · -- every scanline is read, those of the region are copied
    have he : Inv roi.dims.h = Inv (min (l.dims.h - roi.y) roi.dims.h) := by rw [min_eq_right (by omega)]
    rw [he, u32_of_lt (lt_of_le_of_lt hrw l.ny_lt)]
    refine forCount_ends (fun i => Inv (min (i - roi.y) roi.dims.h)) (by simpa using h0) fun i buf hi hb => ?_
    refine readScanline_bind (hr i hi) fun scan hs => ?_
    split_ifs with hrn
    · obtain ⟨y, rfl⟩ := Nat.exists_eq_add_of_le hrn.1
      rw [show min (roi.y + y - roi.y) roi.dims.h = y by omega] at hb
      rw [show min (roi.y + y + 1 - roi.y) roi.dims.h = y + 1 by omega]
      exact hst y (by omega) scan buf hs hb
    · rwa [ends_pure, show min (i + 1 - roi.y) roi.dims.h = min (i - roi.y) roi.dims.h by omega]
  · obtain rfl : count = roi.dims.h := ha.resolve_left hc
    have he : Inv roi.dims.h = Inv (roi.y + roi.dims.h - roi.y) := by rw [Nat.add_sub_cancel_left]
    rw [he]
    refine forRange_ends (fun i => Inv (i - roi.y)) (by simpa using h0) fun i buf hlo hi hb => ?_
    obtain ⟨y, rfl⟩ := Nat.exists_eq_add_of_le hlo
    rw [Nat.add_sub_cancel_left] at hb
    rw [show roi.y + y + 1 - roi.y = y + 1 by omega]
    exact readScanline_bind (hr _ (by omega)) fun scan hs => hst y (by omega) scan buf hs hb

theorem readRows_keeps {n c count : ℕ} {dest : ℕ → ℕ} (Inv : Buffer UInt8 → Prop) {inbuf : Buffer UInt8}
    (h0 : Inv inbuf) (hr : ∀ i, Ends (readScanline l scans i c) (fun _ => True) E)
    (hst : ∀ i scan buf, roi.y ≤ i → (l.compressed = false → i < roi.y + count) →
      readScanline l scans i c = .ok scan → Inv buf → Ends (copyRow w l junk n roi (dest i) scan buf) Inv E) :
    Ends (readRows w l junk scans roi n c dest count inbuf) Inv E := by
  unfold readRows
  split_ifs with hc
  · refine forCount_ends (fun _ => Inv) h0 fun i buf _ hb => readScanline_bind (hr i) fun scan hs => ?_
    split_ifs with hrn
    · exact hst i scan buf hrn.1 (fun hf => by simp [hc] at hf) hs hb
    · exact hb
  · refine forRange_ends (fun _ => Inv) h0 fun i buf hlo hi hb => ?_
    exact readScanline_bind (hr i) fun scan hs => hst i scan buf hlo (fun _ => hi) hs hb

theorem copyRow_ends {n dest : ℕ} {scan buf : Buffer UInt8} {P : Part → Prop} {Q : Buffer UInt8 → Prop}
    (hp : Ends (rowPart w l junk n roi scan) (fun part => ∀ p ∈ part, P p) E) (hn : Q buf)
    (hs : ∀ p, P p → Ends (buf.copy .overrun (w.bytes * dest) p.src p.start p.count) Q E) :
    Ends (copyRow w l junk n roi dest scan buf) Q E := by
  refine hp.bind fun part h => ?_
  cases part with
  | none => exact hn
  | some p => exact hs p (h p rfl)

end

end Sipi.Formats
