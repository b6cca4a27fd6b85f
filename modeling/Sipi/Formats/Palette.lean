import Sipi.Formats.TiffRead

/-!
# Pictures with a palette

A TIFF with a palette stores an index for each pixel, and a colour map.

## Honest scope

All directories of a file have the same palette. The map has room for all entries.
-/

namespace Sipi.Formats

open Sipi.Theory Sipi.Geometry Sipi.Iiif

/-! ### The colour map -/

/-- `rcm`, `gcm` and `bcm`. -/
structure ColorMap (bps : ℕ) where
  red : Fin (2 ^ bps) → UInt16
  green : Fin (2 ^ bps) → UInt16
  blue : Fin (2 ^ bps) → UInt16

namespace ColorMap

variable {bps : ℕ}

/-- One of the three parts. -/
def channel (cm : ColorMap bps) : ℕ → Fin (2 ^ bps) → UInt16
  | 0 => cm.red
  | 1 => cm.green
  | _ => cm.blue

/-- A round of the loop for `cm_max`. -/
def maxStep (cm : ColorMap bps) (m : ℕ) (i : Fin (2 ^ bps)) : ℕ :=
  max (max (max m (cm.red i).toNat) (cm.green i).toNat) (cm.blue i).toNat

/-- `cm_max`. -/
def cmMax (cm : ColorMap bps) : ℕ := (List.finRange (2 ^ bps)).foldl cm.maxStep 0

end ColorMap

/-- How reading a picture with a palette fails. -/
inductive PaletteFailure where
  | reader (e : Failure)
  | pastMap
  deriving DecidableEq

/-- `rcm[v]`, `gcm[v]` or `bcm[v]`. -/
def lookUp {bps : ℕ} (cm : ColorMap bps) (c v : ℕ) : Except PaletteFailure UInt16 :=
  if h : v < 2 ^ bps then .ok (cm.channel c ⟨v, h⟩) else .error .pastMap

/-- What is stored of an entry. -/
def entryByte (cmMax : ℕ) (v : UInt16) : UInt8 := if cmMax ≤ 256 then v.toUInt8 else (v >>> 8).toUInt8

/-- The image in colour. -/
structure Rgb where
  pixels : Buffer UInt8
  nc : ℕ
  width : Width
  dims : Dims

/-- A round of the loop over the pixels. -/
def expandPixel {bps : ℕ} (cm : ColorMap bps) (pixels : Buffer UInt8) (i : ℕ) (dataptr : Buffer UInt8) :
    Except PaletteFailure (Buffer UInt8) := do
  let v := (pixels.get i).toNat
  let r ← lookUp cm 0 v
  let g ← lookUp cm 1 v
  let b ← lookUp cm 2 v
  return ((dataptr.set (3 * i) (entryByte cm.cmMax r)).set (3 * i + 1) (entryByte cm.cmMax g)).set (3 * i + 2)
    (entryByte cm.cmMax b)

/-- The end of `SipiIOTiff::read` for a palette. -/
def expand {bps : ℕ} (cm : ColorMap bps) (img : Loaded) : Except PaletteFailure Rgb := do
  let dataptr ← forRange (expandPixel cm img.pixels) (img.dims.w * img.dims.h) 0
    (.const (3 * (img.dims.w * img.dims.h)) 0)
  return { pixels := dataptr, nc := 3, width := img.width, dims := img.dims }

/-- `SipiIOTiff::read` of a picture with a palette. -/
def readPalette (t : Tiff) (cm : ColorMap t.bps) (junk : UInt8 × UInt8) (contents : ℕ → Content)
    (region : Option Region) (size : Option SizeParts) : Except PaletteFailure Rgb :=
  (read t junk contents region size).mapError .reader >>= expand cm

/-- The index of pixel `x` of a scanline. -/
def storedIndex (bps : ℕ) (bytes : ℕ → UInt8) (x : ℕ) : ℕ :=
  if bps = 1 then if (0x80 >>> UInt8.ofNat (x % 8)) &&& bytes (x / 8) ≠ 0 then 1 else 0
  else if bps = 8 then (bytes x).toNat
  else (bytes (2 * x)).toNat + 256 * (bytes (2 * x + 1)).toNat

variable {bps : ℕ}

theorem storedIndex_eight (h : bps = 8) (bytes : ℕ → UInt8) (x : ℕ) : storedIndex bps bytes x = (bytes x).toNat := by
  simp [storedIndex, h]

/-- A colour with eight bits. -/
def shade (cmMax : ℕ) (v : UInt16) : ℕ := if cmMax ≤ 255 then v.toNat else v.toNat / 256

/-- A sample of an image, if it is in the block. -/
def Rgb.sample (img : Rgb) (x y c : ℕ) : Option ℕ :=
  let p := img.width.bytes * index img.dims.w img.nc x y c
  if p + img.width.bytes ≤ img.pixels.size then
    some (match img.width with
      | .byte => (img.pixels.get p).toNat
      | .word => (img.pixels.get p).toNat + 256 * (img.pixels.get (p + 1)).toNat)
  else none

/-- The image has the colours of a region. -/
def ShowsMap {bps : ℕ} (cm : ColorMap bps) (scans : Scans) (roi : Rect) (img : Rgb) : Prop :=
  img.nc = 3 ∧ img.dims = roi.dims ∧ ∀ x < roi.dims.w, ∀ y < roi.dims.h, ∀ c < 3,
    ∃ bytes, scans (roi.y + y) 0 = some bytes ∧ ∃ v : Fin (2 ^ bps), v.val = storedIndex bps bytes (roi.x + x) ∧
      img.sample x y c = some (shade cm.cmMax (cm.channel c v))

/-- The file is refused. -/
def PaletteFailure.Refused : PaletteFailure → Prop
  | .reader e => e.Thrown
  | .pastMap => False

/-- **A picture is shown in its colours**, or refused. -/
def ExpandsPalette (t : Tiff) (cm : ColorMap t.bps) (junk : UInt8 × UInt8) (contents : ℕ → Content)
    (region : Option Region) (size : Option SizeParts) : Prop :=
  Ends (readPalette t cm junk contents region size) (fun img => ∃ level roi,
    t.locate region size = .ok (level, roi) ∧ ShowsMap cm (contents level).scans roi img) PaletteFailure.Refused

/-- All directories are of a picture with a palette. -/
def Tiff.IsPalette (t : Tiff) : Prop :=
  ∀ l ∈ t.first :: t.rest, l.photo = .palette ∧ l.planar = .contig ∧ l.nc = 1 ∧ l.bpsTag = some t.bps ∧ ¬ l.IsTiled

namespace ColorMap

variable {bps : ℕ} (cm : ColorMap bps)

theorem le_maxStep (m : ℕ) (i : Fin (2 ^ bps)) : m ≤ cm.maxStep m i ∧ ∀ c, (cm.channel c i).toNat ≤ cm.maxStep m i := by
  refine ⟨by simp [maxStep], fun c => ?_⟩
  unfold channel maxStep
  split <;> simp

theorem maxStep_cases (m : ℕ) (i : Fin (2 ^ bps)) :
    cm.maxStep m i = m ∨ ∃ c < 3, cm.maxStep m i = (cm.channel c i).toNat := by
  unfold maxStep
  rcases max_choice (max (max m (cm.red i).toNat) (cm.green i).toNat) (cm.blue i).toNat with h | h <;> rw [h]
  · rcases max_choice (max m (cm.red i).toNat) (cm.green i).toNat with h | h <;> rw [h]
    · rcases max_choice m (cm.red i).toNat with h | h <;> rw [h]
      · exact Or.inl rfl
      · exact Or.inr ⟨0, by norm_num, rfl⟩
    · exact Or.inr ⟨1, by norm_num, rfl⟩
  · exact Or.inr ⟨2, by norm_num, rfl⟩

theorem foldl_maxStep (is : List (Fin (2 ^ bps))) (m : ℕ) :
    (m ≤ is.foldl cm.maxStep m ∧ ∀ i ∈ is, ∀ c, (cm.channel c i).toNat ≤ is.foldl cm.maxStep m) ∧
      (is.foldl cm.maxStep m = m ∨ ∃ i, ∃ c < 3, is.foldl cm.maxStep m = (cm.channel c i).toNat) := by
  induction is generalizing m with
  | nil => simp
  | cons i is ih =>
    obtain ⟨⟨hle, ha⟩, hc⟩ := ih (cm.maxStep m i)
    obtain ⟨hm, hi⟩ := cm.le_maxStep m i
    rw [List.foldl_cons]
    refine ⟨⟨hm.trans hle, ?_⟩, ?_⟩
    · rw [List.forall_mem_cons]
      exact ⟨fun c => (hi c).trans hle, ha⟩
    · rcases hc with heq | hs
      · rw [heq]
        exact (cm.maxStep_cases m i).imp_right fun h => ⟨i, h⟩
      · exact Or.inr hs

theorem channel_le_cmMax (c : ℕ) (i : Fin (2 ^ bps)) : (cm.channel c i).toNat ≤ cm.cmMax :=
  (cm.foldl_maxStep _ 0).1.2 i (List.mem_finRange i) c

theorem exists_cmMax (h : 0 < cm.cmMax) : ∃ i, ∃ c < 3, (cm.channel c i).toNat = cm.cmMax := by
  rcases (cm.foldl_maxStep (List.finRange (2 ^ bps)) 0).2 with hz | ⟨i, c, hc, heq⟩
  · exact absurd hz h.ne'
  · exact ⟨i, c, hc, heq.symm⟩

end ColorMap

theorem entryByte_eq_shade {cmMax : ℕ} (h : cmMax ≠ 256) {v : UInt16} (hv : v.toNat ≤ cmMax) :
    (entryByte cmMax v).toNat = shade cmMax v := by
  have hlt := v.toNat_lt
  unfold entryByte shade
  split_ifs with hb h255 h255
  · simp
    omega
  · omega
  · omega
  · simp [Nat.shiftRight_eq_div_pow]
    omega

variable {pixels out : Buffer UInt8} {i : ℕ}

section Expand

variable {bps : ℕ} {cm : ColorMap bps} {img : Loaded}

/-- The pixels before `k` are in colour. -/
structure Expanded (cm : ColorMap bps) (pixels : Buffer UInt8) (n k : ℕ) (out : Buffer UInt8) : Prop where
  size : out.size = 3 * n
  get : ∀ i < k, ∀ c < 3, ∃ h : (pixels.get i).toNat < 2 ^ bps,
    out.get (3 * i + c) = entryByte cm.cmMax (cm.channel c ⟨(pixels.get i).toNat, h⟩)

theorem expandPixel_of_lt (h : (pixels.get i).toNat < 2 ^ bps) :
    expandPixel cm pixels i out = .ok (((out.set (3 * i) (entryByte cm.cmMax (cm.channel 0 ⟨_, h⟩))).set (3 * i + 1)
      (entryByte cm.cmMax (cm.channel 1 ⟨_, h⟩))).set (3 * i + 2) (entryByte cm.cmMax (cm.channel 2 ⟨_, h⟩))) := by
  simp only [expandPixel, lookUp, h, dite_true, ok_bind]
  rfl

theorem Expanded.step {n : ℕ} (ho : Expanded cm pixels n i out) :
    Ends (expandPixel cm pixels i out) (Expanded cm pixels n (i + 1))
      fun e => e = .pastMap ∧ ∃ i, ¬ (pixels.get i).toNat < 2 ^ bps := by
  by_cases h : (pixels.get i).toNat < 2 ^ bps
  case neg =>
    simp only [expandPixel, lookUp, h, dite_false, error_bind]
    exact ⟨rfl, i, h⟩
  rw [expandPixel_of_lt h]
  refine ⟨ho.size, fun j hj c hc => ?_⟩
  rcases Nat.lt_succ_iff_lt_or_eq.mp hj with hlt | rfl
  · obtain ⟨hj, hg⟩ := ho.get j hlt c hc
    refine ⟨hj, ?_⟩
    rw [Buffer.get_set_of_ne _ (by omega), Buffer.get_set_of_ne _ (by omega), Buffer.get_set_of_ne _ (by omega), hg]
  · refine ⟨h, ?_⟩
    obtain rfl | rfl | rfl : c = 0 ∨ c = 1 ∨ c = 2 := by omega
    · rw [Buffer.get_set_of_ne _ (by omega), Buffer.get_set_of_ne _ (by omega), Nat.add_zero, Buffer.get_set_self]
    · rw [Buffer.get_set_of_ne _ (by omega), Buffer.get_set_self]
    · rw [Buffer.get_set_self]

theorem expand_ends : Ends (expand cm img) (fun rgb => rgb.nc = 3 ∧ rgb.width = img.width ∧ rgb.dims = img.dims ∧
      Expanded cm img.pixels (img.dims.w * img.dims.h) (img.dims.w * img.dims.h) rgb.pixels)
    fun e => e = .pastMap ∧ ∃ i, ¬ (img.pixels.get i).toNat < 2 ^ bps := by
  refine Ends.bind (Q := Expanded cm img.pixels (img.dims.w * img.dims.h) (img.dims.w * img.dims.h)) ?_
    fun out ho => ⟨rfl, rfl, rfl, ho⟩
  exact forCount_ends (fun i => Expanded cm img.pixels (img.dims.w * img.dims.h) i) ⟨rfl, by simp⟩
    fun i out hi ho => ho.step

end Expand

section Rows

variable {w : Width} {l : Layout} {junk : UInt8 × UInt8} {roi : Rect} {scans : Scans}

/-- Scanlines that cannot be read, made blank. -/
def filled (scans : Scans) (i c r : ℕ) : UInt8 := (scans i c).getD (fun _ => 0) r

theorem readScanline_filled {c : ℕ} {scan : Buffer UInt8} (h : readScanline l scans i c = .ok scan) :
    readScanline l (fun i c => some (filled scans i c)) i c = .ok scan := by
  unfold readScanline at h ⊢
  cases hs : scans i c with
  | none => simp [hs] at h
  | some bytes =>
    rw [hs] at h
    have hf : filled scans i c = bytes := by
      funext r
      simp [filled, hs]
    simp only [hf]
    exact h

theorem readStandardData_complete (hc : l.planar = .contig) (hin : Inside l roi)
    (h : readStandardData w l junk scans roi = .ok out) :
    (∀ y < roi.dims.h, ∃ bytes, scans (roi.y + y) 0 = some bytes ∧ filled scans (roi.y + y) 0 = bytes) ∧
      readStandardData w l junk (fun i c => some (filled scans i c)) roi = .ok out := by
  simp only [readStandardData, hc] at h ⊢
  constructor
  · have hrw : Ends (readRows w l junk scans roi l.nc 0 (contigDest l roi) roi.dims.h
        (.const (w.bytes * u32 (roi.dims.h * roi.dims.w * l.nc)) 0))
        (fun _ => ∀ q < roi.dims.h, ∃ bytes, scans (roi.y + q) 0 = some bytes) fun _ => True := by
      refine readRows_ends hin (.inr rfl) (fun y _ => ∀ q < y, ∃ bytes, scans (roi.y + q) 0 = some bytes) (by simp)
        (fun _ _ => ends_trivial _) fun y _ scan buf hs hbf => ?_
      refine (ends_trivial _).imp fun _ _ q hq => ?_
      rcases Nat.lt_succ_iff_lt_or_eq.mp hq with hlt | rfl
      · exact hbf q hlt
      · cases hn : scans (roi.y + q) 0 with
        | none => simp [readScanline, hn] at hs
        | some bytes => exact ⟨bytes, rfl⟩
    intro y hy
    obtain ⟨bytes, hb⟩ := hrw.of_ok h y hy
    refine ⟨bytes, hb, ?_⟩
    funext r
    simp [filled, hb]
  · have hr : ∀ {i : ℕ} {f : Buffer UInt8 → Except Failure (Buffer UInt8)} {t : Buffer UInt8},
        (readScanline l scans i 0 >>= f) = .ok t →
          (readScanline l (fun i c => some (filled scans i c)) i 0 >>= f) = .ok t := by
      intro i f t hr
      cases hs : readScanline l scans i 0 with
      | error e => simp [hs] at hr
      | ok scan =>
        rw [hs] at hr
        rw [readScanline_filled hs]
        exact hr
    unfold readRows at h ⊢
    split_ifs at h ⊢ with hcm
    · exact forRange_of_ok (fun i s t => hr) h
    · exact forRange_of_ok (fun i s t => hr) h

end Rows

/-! ### Reading -/

section Read

variable {t : Tiff} {junk : UInt8 × UInt8} {content : Content} {level : ℕ} {roi : Rect} {img : Loaded}

theorem Tiff.IsPalette.directory (h : t.IsPalette) (level : ℕ) :
    (t.directory level).planar = .contig ∧ (t.directory level).nc = 1 ∧ (t.directory level).bps = t.bps ∧
      ¬ (t.directory level).IsTiled := by
  obtain ⟨-, hc, hnc, hb, ht⟩ := h _ (directory_mem t level)
  exact ⟨hc, hnc, by simp [Layout.bps, hb], ht⟩

variable {w : Width}

theorem pixels_of_load (hw : sampleWidth t.bps = some w) (hpl : t.IsPalette)
    (h : load t junk content level roi = .ok img) :
    img.width = w ∧ img.dims = roi.dims ∧ ∃ data,
      readStandardData w (t.directory level) junk content.scans roi = .ok data ∧
      ∀ p < data.size, img.pixels.get p = data.get p := by
  obtain ⟨-, -, -, ht⟩ := hpl.directory level
  simp only [load, hw, pixdata, ht, if_false] at h
  cases hd : readStandardData w (t.directory level) junk content.scans roi with
  | error e => simp [hd] at h
  | ok data =>
    rw [hd, ok_bind] at h
    rcases le_or_gt (0 + data.size) (w.bytes * roi.dims.w * roi.dims.h * t.first.nc % 2 ^ 64) with hr | ho
    · rw [Buffer.copy_of_le _ (by simpa using hr), ok_bind] at h
      cases h
      refine ⟨rfl, rfl, data, rfl, fun p hp => ?_⟩
      have hg := Buffer.get_blit_of_lt (Buffer.const (w.bytes * roi.dims.w * roi.dims.h * t.first.nc % 2 ^ 64) 0) 0
        data 0 hp
      simpa using hg
    · rw [Buffer.copy_of_lt _ (by simpa using ho)] at h
      cases h

theorem samples_lt_of_rowsFit {l : Layout} (hnc : l.nc = 1) (hb : l.bps = 1 ∨ l.bps = 8) (hin : Inside l roi)
    (h : RowsFit .byte l roi) : roi.dims.w * roi.dims.h < 2 ^ 32 := by
  by_contra hl
  set size := u32 (roi.dims.w * roi.dims.h) with hs
  have hw : roi.dims.w < 2 ^ 32 := lt_of_le_of_lt (by have := hin.columns; omega) l.nx_lt
  have hlt : size < 2 ^ 32 := Nat.mod_lt _ (by norm_num)
  -- the row in which the block ends
  set y := size / roi.dims.w with hy
  have hbg : y * roi.dims.w ≤ size := Nat.div_mul_le_self _ _
  have he : size < y * roi.dims.w + roi.dims.w := by
    have := Nat.lt_mul_div_succ size roi.dims.w_pos
    rw [← hy, Nat.mul_comm, Nat.add_mul, Nat.one_mul] at this
    exact this
  have hr : y < roi.dims.h := by
    refine Nat.lt_of_mul_lt_mul_right (a := roi.dims.w) ?_
    rw [Nat.mul_comm roi.dims.h]
    omega
  have hp : l.psiz = 1 := by
    rcases hb with h1 | h8
    · simp [Layout.psiz, h1]
    · simp [Layout.psiz, h8]
  have hf := (h.2 y hr).2 (by rcases hb with h1 | h8 <;> simp [Layout.Known, *])
  rw [contigDest, Nat.add_sub_cancel_left, Layout.rowBytes, hnc, hp, Nat.one_mul, Nat.one_mul, Nat.mul_one,
    Nat.mul_one, ← hs, u32_of_lt (hbg.trans_lt hlt), u32_of_lt hw, Width.bytes, Nat.one_mul, Nat.one_mul] at hf
  omega

theorem pixels_of_palette (hpa : t.IsPalette) (hb : t.bps = 1 ∨ t.bps = 8) (hin : Inside (t.directory level) roi)
    (h : load t junk content level roi = .ok img) :
    img.width = .byte ∧ img.dims = roi.dims ∧ roi.dims.w * roi.dims.h < 2 ^ 32 ∧
      ∀ x < roi.dims.w, ∀ y < roi.dims.h, ∃ bytes, content.scans (roi.y + y) 0 = some bytes ∧
        img.pixels.get (y * roi.dims.w + x) = sampleByte (t.directory level) junk bytes (roi.x + x) 0 := by
  obtain ⟨hc, hnc, hbp, -⟩ := hpa.directory level
  have hw : sampleWidth t.bps = some .byte := by rcases hb with h1 | h8 <;> simp [sampleWidth, *]
  obtain ⟨hwd, hdm, data, hd, hp⟩ := pixels_of_load hw hpa h
  obtain ⟨hsz, hr⟩ := (readStandardData_ends hc hin _).of_ok hd
  have hs := samples_lt_of_rowsFit hnc (by rwa [hbp]) hin hr
  have hby : (t.directory level).width = .byte := by
    rcases hb with h1 | h8 <;> simp [Layout.width, *]
  have hof : (t.directory level).OfBits := by
    rcases hb with h1 | h8 <;> simp [Layout.OfBits, *]
  have hft : Fits32 (t.directory level) roi := ⟨hr.1, by rwa [hnc, Nat.mul_one]⟩
  have hl : LineFits (t.directory level) := by
    intro h1
    have := (hr.2 0 roi.dims.h_pos).1
    rwa [Layout.LineUnpacks, Layout.group, h1] at this
  obtain ⟨ht, hf⟩ := readStandardData_complete hc hin hd
  rw [← hby] at hf
  obtain ⟨hln, hg⟩ := (copied_ends junk hof hin hc hft hl (filled content.scans)).of_ok hf
  rw [hby, hnc] at hg hln
  refine ⟨hwd, hdm, hs, fun x hx y hy => ?_⟩
  obtain ⟨bytes, hbt, heq⟩ := ht y hy
  refine ⟨bytes, hbt, ?_⟩
  have hi : index roi.dims.w 1 x y 0 = y * roi.dims.w + x := by simp [index]
  have hpl := place_lt hx hy
  have hv := hg x hx y hy 0 Nat.one_pos 0 Nat.one_pos
  rw [Width.bytes, Nat.one_mul, Nat.add_zero, hi, heq] at hv
  rw [hp _ (by simpa [hln, Width.bytes] using hpl), hv, copiedByte]
  have hcl : roi.x + x < (t.directory level).dims.w := by have := hin.columns; omega
  have hnx := (t.directory level).nx_lt
  simp only [Nat.one_mul, Nat.add_zero, u32_of_lt hnx, u32_of_lt (show roi.x < 2 ^ 32 by omega), hcl, if_true,
    ite_self]

/-- A file in which every byte is the same. -/
def plainContent (k : UInt8) : Content := ⟨fun _ _ => some fun _ => k, fun _ _ => none⟩

theorem load_plainContent {k : UInt8} (hp : t.IsPalette) (hin : Inside (t.directory level) roi)
    (hw : sampleWidth t.bps = some w) :
    Ends (load t junk (plainContent k) level roi) (fun _ => True) fun e => ¬ e.Thrown := by
  obtain ⟨hc, -, -, ht⟩ := hp.directory level
  have hd : Ends (readStandardData w (t.directory level) junk (plainContent k).scans roi) (fun _ => True)
      fun e => ¬ e.Thrown := by
    refine (readStandardData_ends hc hin _).mono (fun _ _ => trivial) fun e he => ?_
    rcases he with ⟨-, i, hn⟩ | ⟨rfl, -⟩
    · cases hn
    · exact not_thrown_overrun
  simp only [load, hw, pixdata, ht, if_false]
  refine hd.bind fun data _ => ?_
  refine Ends.bind (Q := fun _ => True) ?_ fun pixels _ => trivial
  exact Buffer.copy_ends (fun _ => trivial) fun _ => not_thrown_overrun

variable {region : Option Region} {size : Option SizeParts} {cm : ColorMap t.bps}

theorem readPalette_eq {contents : ℕ → Content} (hl : t.locate region size = .ok (level, roi)) :
    readPalette t cm junk contents region size =
      (load t junk (contents level) level roi).mapError .reader >>= expand cm := by
  rw [readPalette, read, hl]
  rfl

theorem sample_of_expanded {cm : ColorMap bps} {rgb : Rgb} (hnc : rgb.nc = 3) (hw : rgb.width = .byte)
    (he : Expanded cm pixels (rgb.dims.w * rgb.dims.h) (rgb.dims.w * rgb.dims.h) rgb.pixels)
    {x y c : ℕ} (hx : x < rgb.dims.w) (hy : y < rgb.dims.h) (hc : c < 3) :
    ∃ h : (pixels.get (y * rgb.dims.w + x)).toNat < 2 ^ bps,
      rgb.sample x y c = some (entryByte cm.cmMax (cm.channel c ⟨_, h⟩)).toNat := by
  have hp := place_lt hx hy
  have hpl := index_lt hx hy hc
  obtain ⟨h, hg⟩ := he.get _ hp c hc
  refine ⟨h, ?_⟩
  have hr : Width.byte.bytes * index rgb.dims.w 3 x y c + Width.byte.bytes ≤ rgb.pixels.size := by
    rw [he.size, Width.bytes]
    omega
  rw [Rgb.sample, hw, hnc, if_pos hr, Width.bytes, Nat.one_mul, ← hg]
  rfl

theorem expand_of_eight (cm : ColorMap t.bps) (hpl : t.IsPalette) (h8 : t.bps = 8)
    (hin : Inside (t.directory level) roi) (hl : load t junk content level roi = .ok img) :
    ∃ rgb, expand cm img = .ok rgb ∧ rgb.nc = 3 ∧ rgb.dims = roi.dims ∧
      ∀ x < roi.dims.w, ∀ y < roi.dims.h, ∀ c < 3, ∃ bytes, content.scans (roi.y + y) 0 = some bytes ∧
        ∃ v : Fin (2 ^ t.bps), v.val = storedIndex t.bps bytes (roi.x + x) ∧
          rgb.sample x y c = some (entryByte cm.cmMax (cm.channel c v)).toNat := by
  obtain ⟨hwd, hd, -, hp⟩ := pixels_of_palette hpl (.inr h8) hin hl
  have hbp := (hpl.directory level).2.2.1
  have hi : ∀ i, (img.pixels.get i).toNat < 2 ^ t.bps := fun i => h8 ▸ (img.pixels.get i).toNat_lt
  have he : Ends (expand cm img) _ _ := expand_ends
  obtain ⟨rgb, hr, hnc, hrw, hrd, hex⟩ := (Ends.mono he (fun _ => id) fun _ h => h.2.elim fun i hn => hn (hi i)).exists_ok
  refine ⟨rgb, hr, hnc, hrd.trans hd, fun x hx y hy c hc => ?_⟩
  obtain ⟨bytes, hb, hpx⟩ := hp x hx y hy
  rw [← hrd] at hex
  rw [← hd, ← hrd] at hx hy
  obtain ⟨hlt, hsm⟩ := sample_of_expanded hnc (hrw.trans hwd) hex hx hy hc
  refine ⟨bytes, hb, ⟨_, hlt⟩, ?_, hsm⟩
  show (img.pixels.get (y * rgb.dims.w + x)).toNat = _
  rw [hrd, hd, hpx, sampleByte, if_neg (by omega), width_bytes_of_ne (by omega), storedIndex_eight h8]
  norm_num

theorem expandsPalette_of_eight {contents : ℕ → Content}
    (hpl : t.IsPalette) (hlc : t.locate region size = .ok (level, roi)) (h8 : t.bps = 8)
    (hsa : roi.dims.w * roi.dims.h < 2 ^ 32) (hm : cm.cmMax ≠ 256) :
    ExpandsPalette t cm junk contents region size := by
  have hin : Inside (t.directory level) roi := ((locate_ends t region size).of_ok hlc).2
  obtain ⟨hcn, hnc, hbp, ht⟩ := hpl.directory level
  have hw : sampleWidth t.bps = some .byte := by simp [sampleWidth, h8]
  have hf : t.first.nc = 1 := (hpl t.first List.mem_cons_self).2.2.1
  have ha : ScansAgree .byte (t.directory level) 1 roi := by
    have hln : (t.directory level).scanlineSize = (t.directory level).dims.w := by
      rw [scanlineSize_eq (.inl (hbp.trans h8)), width_bytes_of_ne (by omega), Layout.lineChannels_of_contig hcn, hnc]
      simp
    refine ⟨hnc, by rwa [hnc, Nat.mul_one], by rw [hln]; exact (t.directory level).nx_lt, ?_, ?_, ?_⟩
    · rw [Layout.LineUnpacks, Layout.group, hbp, h8]
      exact (Nat.mod_lt _ (by norm_num)).le
    · intro h16
      omega
    · intro h12
      omega
  have hs : Stays (load t junk (contents level) level roi) := by
    rw [load_stays hw, hf, pixdata, if_neg ht]
    exact (scans_stay_iff .byte junk hcn hin (.inr hnc)).2 ha _
  rw [ExpandsPalette, readPalette_eq hlc]
  cases hl : load t junk (contents level) level roi with
  | error e =>
    rw [hl] at hs
    exact hs
  | ok img =>
    obtain ⟨rgb, hr, hn3, hrd, hsm⟩ := expand_of_eight cm hpl h8 hin hl
    show Ends (expand cm img) _ _
    rw [hr]
    refine ⟨level, roi, hlc, hn3, hrd, fun x hx y hy c hc => ?_⟩
    obtain ⟨bytes, hb, v, hv, hs⟩ := hsm x hx y hy c hc
    exact ⟨bytes, hb, v, hv, by rw [hs, entryByte_eq_shade hm (cm.channel_le_cmMax _ _)]⟩

theorem exists_load_of_expands {k : UInt8} (hp : t.IsPalette) (hlc : t.locate region size = .ok (level, roi))
    (hw : sampleWidth t.bps = some w) (h : ExpandsPalette t cm junk (fun _ => plainContent k) region size) :
    ∃ img, load t junk (plainContent k) level roi = .ok img ∧
      Ends (expand cm img) (ShowsMap cm (plainContent k).scans roi) PaletteFailure.Refused := by
  have hin : Inside (t.directory level) roi := ((locate_ends t region size).of_ok hlc).2
  have ht : Ends (load t junk (plainContent k) level roi) (fun _ => True) fun e => ¬ e.Thrown :=
    load_plainContent hp hin hw
  rw [ExpandsPalette, readPalette_eq hlc] at h
  cases hl : load t junk (plainContent k) level roi with
  | error e =>
    rw [hl] at h ht
    exact absurd h ht
  | ok img =>
    rw [hl] at h
    refine ⟨img, rfl, Ends.mono h (fun rgb hrg => ?_) fun _ => id⟩
    obtain ⟨level', roi', hl', hs⟩ := hrg
    rw [hlc] at hl'
    cases hl'
    exact hs

theorem exists_rgb_of_shows {cm : ColorMap bps} {scans : Scans}
    (h : Ends (expand cm img) (ShowsMap cm scans roi) PaletteFailure.Refused) :
    ∃ rgb, ShowsMap cm scans roi rgb ∧ rgb.width = img.width ∧
      Expanded cm img.pixels (img.dims.w * img.dims.h) (img.dims.w * img.dims.h) rgb.pixels := by
  have hx : Ends (expand cm img) _ _ := expand_ends
  cases he : expand cm img with
  | error e =>
    rw [he, ends_error] at h hx
    rw [hx.1] at h
    exact h.elim
  | ok rgb =>
    rw [he] at h hx
    exact ⟨rgb, h, hx.2.1, hx.2.2.2⟩

theorem not_expands_of_one (hpl : t.IsPalette) (hlc : t.locate region size = .ok (level, roi)) (h1 : t.bps = 1) :
    ¬ ExpandsPalette t cm (2, 2) (fun _ => plainContent 0) region size := by
  intro h
  have hin : Inside (t.directory level) roi := ((locate_ends t region size).of_ok hlc).2
  obtain ⟨img, hl, he⟩ := exists_load_of_expands hpl hlc (by rw [h1]; rfl) h
  obtain ⟨-, hd, -, hp⟩ := pixels_of_palette hpl (.inl h1) hin hl
  obtain ⟨bytes, -, hpx⟩ := hp 0 roi.dims.w_pos 0 roi.dims.h_pos
  have hb := (hpl.directory level).2.2.1
  have hph := (hpl _ (directory_mem t level)).1
  have hj : img.pixels.get 0 = 2 := by
    simpa [sampleByte, hb, h1, hph, blackWhite] using hpx
  obtain ⟨rgb, -, -, hex⟩ := exists_rgb_of_shows he
  obtain ⟨hlt, -⟩ := hex.get 0 (Nat.mul_pos img.dims.w_pos img.dims.h_pos) 0 (by norm_num)
  rw [hj, h1] at hlt
  exact absurd hlt (by decide)

theorem not_expands_of_sixteen
    (hp : t.IsPalette) (hlc : t.locate region size = .ok (level, roi)) (h16 : t.bps = 16) :
    ¬ ExpandsPalette t cm junk (fun _ => plainContent 0) region size := by
  intro h
  have hw : sampleWidth t.bps = some .word := by rw [h16]; rfl
  obtain ⟨img, hl, he⟩ := exists_load_of_expands hp hlc hw h
  obtain ⟨hwd, hd, -⟩ := pixels_of_load hw hp hl
  obtain ⟨rgb, ⟨hnc, hrd, hsh⟩, hr, hsz, -⟩ := exists_rgb_of_shows he
  -- the last sample is past the end
  obtain ⟨a, ha⟩ := Nat.exists_eq_succ_of_ne_zero roi.dims.w_pos.ne'
  obtain ⟨b, hb⟩ := Nat.exists_eq_succ_of_ne_zero roi.dims.h_pos.ne'
  obtain ⟨-, -, v, -, hs⟩ := hsh a (by omega) b (by omega) 2 (by norm_num)
  rw [Rgb.sample, hr, hwd, hnc, hrd, hsz, hd, if_neg] at hs
  · cases hs
  · simp only [index, ha, hb, Width.bytes, Nat.succ_eq_add_one]
    nlinarith

theorem exists_not_expands_of_max
    (hpl : t.IsPalette) (hlc : t.locate region size = .ok (level, roi)) (h8 : t.bps = 8) (hm : cm.cmMax = 256) :
    ∃ k, ¬ ExpandsPalette t cm junk (fun _ => plainContent k) region size := by
  obtain ⟨i, c, hc, hen⟩ := cm.exists_cmMax (by omega)
  have hi : i.val < 256 := i.isLt.trans_eq (by rw [h8]; rfl)
  refine ⟨UInt8.ofNat i.val, fun h => ?_⟩
  have hix : ∀ (v : Fin (2 ^ t.bps)) x, v.val = storedIndex t.bps (fun _ => UInt8.ofNat i.val) x → v = i := by
    intro v x hv
    rw [storedIndex_eight h8, UInt8.toNat_ofNat', Nat.mod_eq_of_lt hi] at hv
    exact Fin.ext hv
  have hin : Inside (t.directory level) roi := ((locate_ends t region size).of_ok hlc).2
  obtain ⟨img, hl, he⟩ := exists_load_of_expands hpl hlc (by rw [h8]; rfl) h
  obtain ⟨rgb, hr, -, -, hs⟩ := expand_of_eight cm hpl h8 hin hl
  rw [hr] at he
  obtain ⟨-, ⟨⟩, v, hv, hst⟩ := hs 0 roi.dims.w_pos 0 roi.dims.h_pos c hc
  obtain ⟨-, ⟨⟩, v', hv', hsh⟩ := he.2.2 0 roi.dims.w_pos 0 roi.dims.h_pos c hc
  rw [hst, hix v _ hv, hix v' _ hv', hm, UInt16.toNat_inj.mp (hen.trans hm : _ = (256 : UInt16).toNat)] at hsh
  exact absurd (Option.some.inj hsh) (by decide)

end Read

/-- **Palettes.** Every picture is shown in the colours of its map, or refused, exactly if the size can be computed,
the indices have eight bits, the pixels of the region fit 32 bits and the largest entry of the map is not 256. -/
theorem palette_iff (t : Tiff) (cm : ColorMap t.bps) (region : Option Region) (size : Option SizeParts)
    (hpal : t.IsPalette) (hbits : t.bps = 1 ∨ t.bps = 8 ∨ t.bps = 16) :
    (∀ junk contents, ExpandsPalette t cm junk contents region size) ↔
      t.SizeDefined size ∧ ∀ level roi, t.locate region size = .ok (level, roi) →
        t.bps = 8 ∧ roi.dims.w * roi.dims.h < 2 ^ 32 ∧ cm.cmMax ≠ 256 := by
  have hlo := locate_ends t region size
  constructor
  · intro h
    refine ⟨?_, fun level roi hlc => ?_⟩
    · cases hlc : t.locate region size with
      | error e =>
        have hr := h (0, 0) fun _ => plainContent 0
        rw [ExpandsPalette, readPalette, read, hlc] at hr
        rw [hlc] at hlo
        exact hlo.1 hr
      | ok found => exact (hlo.of_ok hlc).1
    have hin : Inside (t.directory level) roi := ((locate_ends t region size).of_ok hlc).2
    rcases hbits with h1 | h8 | h16
    · exact absurd (h _ _) (not_expands_of_one hpal hlc h1)
    · obtain ⟨img, hl, -⟩ := exists_load_of_expands hpal hlc (by rw [h8]; rfl) (h (0, 0) fun _ => plainContent 0)
      refine ⟨h8, (pixels_of_palette hpal (.inr h8) hin hl).2.2.1, fun hm => ?_⟩
      obtain ⟨k, hk⟩ : ∃ k, ¬ ExpandsPalette t cm (0, 0) (fun _ => plainContent k) region size :=
        exists_not_expands_of_max hpal hlc h8 hm
      exact hk (h _ _)
    · exact absurd (h (0, 0) _) (not_expands_of_sixteen hpal hlc h16)
  · rintro ⟨hd, h⟩ junk contents
    cases hlc : t.locate region size with
    | error e =>
      rw [hlc] at hlo
      rw [ExpandsPalette, readPalette, read, hlc]
      exact hlo.2 hd
    | ok found =>
      obtain ⟨h8, hs, hm⟩ := h found.1 found.2 hlc
      exact expandsPalette_of_eight hpal hlc h8 hs hm

def palettePicture (bits w h : ℕ) (hw : 0 < w ∧ w < 2 ^ 32) (hh : 0 < h ∧ h < 2 ^ 32) : Layout where
  dims := ⟨w, h, hw.1, hh.1⟩
  nx_lt := hw.2
  ny_lt := hh.2
  nc := 1
  nc_pos := Nat.one_pos
  bpsTag := some bits
  photo := .palette
  planar := .contig
  compressed := false
  scanlineSize := packedBytes w 1 bits
  tile_bytes := by simp
  tiles_counted := by simp [tileCount]

theorem palettePicture_isPalette (bits w h : ℕ) (hw : 0 < w ∧ w < 2 ^ 32) (hh : 0 < h ∧ h < 2 ^ 32) :
    Tiff.IsPalette ⟨palettePicture bits w h hw hh, []⟩ := by
  intro l hl
  rw [List.mem_singleton] at hl
  subst hl
  exact ⟨rfl, rfl, rfl, rfl, by simp [Layout.IsTiled, palettePicture]⟩

def sixPixels : Tiff := ⟨palettePicture 8 3 2 (by decide) (by decide), []⟩

/-- A map from green to red. -/
def redToGreen : ColorMap 8 where
  red i := UInt16.ofNat (257 * i.val)
  green i := UInt16.ofNat (257 * (255 - i.val))
  blue _ := 0

theorem sixPixels_shown :
    sixPixels.IsPalette ∧ (∀ junk contents, ExpandsPalette sixPixels redToGreen junk contents none none) ∧
      ((readPalette sixPixels redToGreen (0, 0) (fun _ => ⟨fun y _ => some fun x => UInt8.ofNat (40 * (3 * y + x)),
        fun _ _ => none⟩) none none).map fun img => (img.sample 0 0 0, img.sample 2 1 0, img.sample 2 1 1)) =
        .ok (some 0, some 200, some 55) := by
  have hp : sixPixels.IsPalette := palettePicture_isPalette _ _ _ _ _
  refine ⟨hp, (palette_iff sixPixels redToGreen none none hp (Or.inr (Or.inl rfl))).mpr ⟨by simp [Tiff.SizeDefined], ?_⟩,
    by decide +kernel⟩
  rintro level roi ⟨⟩
  exact ⟨rfl, by decide, by decide +kernel⟩

def palettePixel (bits : ℕ) : Layout := palettePicture bits 1 1 (by decide) (by decide)

/-- A map in which only the last entry is not black. -/
def lastEntry (bits : ℕ) (v : UInt16) : ColorMap bits where
  red i := if i.val + 1 = 2 ^ bits then v else 0
  green _ := 0
  blue _ := 0

theorem palettePixel_lost :
    ((readPalette ⟨palettePixel 1, []⟩ (lastEntry 1 255) (0x00, 0xff) (fun _ => plainContent 0xff) none none).map
        fun img => img.sample 0 0 0) = .error .pastMap ∧
      ((readPalette ⟨palettePixel 8, []⟩ (lastEntry 8 256) (0, 0) (fun _ => plainContent 0xff) none none).map
        fun img => img.sample 0 0 0) = .ok (some 0) ∧
      shade (lastEntry 8 256).cmMax ((lastEntry 8 256).red 255) = 1 ∧
      ¬ ExpandsPalette ⟨palettePixel 8, []⟩ (lastEntry 8 256) (0, 0) (fun _ => plainContent 0xff) none none ∧
      ¬ ExpandsPalette ⟨palettePixel 16, []⟩ (lastEntry 16 255) (0, 0) (fun _ => plainContent 0) none none := by
  have height : ((readPalette ⟨palettePixel 8, []⟩ (lastEntry 8 256) (0, 0) (fun _ => plainContent 0xff) none none).map
      fun img => img.sample 0 0 0) = .ok (some 0) := by decide +kernel
  have hsh : shade (lastEntry 8 256).cmMax ((lastEntry 8 256).red 255) = 1 := by decide +kernel
  refine ⟨rfl, height, hsh, fun h => ?_, not_expands_of_sixteen (palettePicture_isPalette _ _ _ _ _) rfl rfl⟩
  obtain ⟨img, hi, hz⟩ := map_eq_ok.mp height
  obtain ⟨level, roi, ⟨⟩, -, -, hsw⟩ := h.of_ok hi
  obtain ⟨bytes, ⟨⟩, v, hv, hs⟩ := hsw 0 Nat.one_pos 0 Nat.one_pos 0 (by norm_num)
  obtain rfl : v = 255 := Fin.ext hv
  rw [hz] at hs
  exact absurd ((Option.some.inj hs).trans hsh) (by decide)

end Sipi.Formats
