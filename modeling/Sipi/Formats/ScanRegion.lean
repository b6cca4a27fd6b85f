import Sipi.Formats.Scanlines

/-!
# The region that is read by scanlines

Whether `read_standard_data` gives the samples of the region it is asked for, of one, eight and sixteen bits.

## Honest scope

Every scanline can be read. `T` is the type that `read` chooses for the bits of a sample.
-/

namespace Sipi.Formats

open Sipi.Theory Sipi.Geometry

/-- One bit with a known black, eight or sixteen. -/
def Layout.Plain (l : Layout) : Prop :=
  (l.bps = 1 ∧ (l.photo = .minIsBlack ∨ l.photo = .minIsWhite)) ∨ l.bps = 8 ∨ l.bps = 16

/-- Samples of one, eight or sixteen bits. -/
def Layout.OfBits (l : Layout) : Prop := l.bps = 1 ∨ l.bps = 8 ∨ l.bps = 16

theorem Layout.Plain.ofBits {l : Layout} (h : l.Plain) : l.OfBits := h.imp_left And.left

/-- The type of an element for the bits of a sample. -/
def Layout.width (l : Layout) : Width := if l.bps = 16 then .word else .byte

/-- Byte `b` of sample `p` of a scanline. -/
def sampleByte (l : Layout) (junk : UInt8 × UInt8) (bytes : ℕ → UInt8) (p b : ℕ) : UInt8 :=
  if l.bps = 1 then
    if (0x80 >>> UInt8.ofNat (p % 8)) &&& bytes (p / 8) ≠ 0 then (blackWhite junk l.photo).2
    else (blackWhite junk l.photo).1
  else bytes (l.width.bytes * p + b)

/-- Byte `b` of a sample of the image. -/
def sourceByte (l : Layout) (junk : UInt8 × UInt8) (rows : ℕ → ℕ → ℕ → UInt8) (x y c b : ℕ) : UInt8 :=
  match l.planar with
  | .contig => sampleByte l junk (rows y 0) (l.nc * x + c) b
  | .separate => sampleByte l junk (rows y c) x b

/-- The region is read as it is, in bounds. -/
def ReadsRegion (l : Layout) (junk : UInt8 × UInt8) (rows : ℕ → ℕ → ℕ → UInt8) (roi : Rect) : Prop :=
  ∃ out, readStandardData l.width l junk (fun i c => some (rows i c)) roi = .ok out ∧
    ∀ x < roi.dims.w, ∀ y < roi.dims.h, ∀ c < l.nc, ∀ b < l.width.bytes,
      l.width.bytes * index roi.dims.w l.nc x y c + b < out.size ∧
      out.get (l.width.bytes * index roi.dims.w l.nc x y c + b) =
        sourceByte l junk rows (roi.x + x) (roi.y + y) c b

/-- What is copied for sample `q` of the region. -/
def copiedByte (l : Layout) (junk : UInt8 × UInt8) (n : ℕ) (roi : Rect) (bytes : ℕ → UInt8) (q b : ℕ) : UInt8 :=
  if l.bps = 1 then
    if u32 (n * roi.x) + q < u32 (n * l.dims.w) then sampleByte l junk bytes (u32 (n * roi.x) + q) b else 0
  else sampleByte l junk bytes (n * roi.x + q) b

/-- The line is as long as its unpacking loop. -/
def LineFits (l : Layout) : Prop := l.bps = 1 → u32 (l.nc * l.dims.w) + 8 ≤ 2 ^ 32

section
variable {l : Layout} {junk : UInt8 × UInt8} {roi : Rect} {n : ℕ}

theorem width_bytes_of_ne (h : l.bps ≠ 16) : l.width.bytes = 1 := by simp [Layout.width, h, Width.bytes]

theorem width_bytes_of_eq (h : l.bps = 16) : l.width.bytes = 2 := by simp [Layout.width, h, Width.bytes]

theorem scanlineSize_eq_packed (l : Layout) : l.scanlineSize = packedBytes l.dims.w l.lineChannels l.bps :=
  l.scanline_bytes

theorem scanlineSize_eq (h : l.bps = 8 ∨ l.bps = 16) :
    l.scanlineSize = l.width.bytes * (l.lineChannels * l.dims.w) := by
  rcases h with h | h
  · rw [width_bytes_of_ne (by omega), scanlineSize_eq_packed, h, packedBytes, Nat.mul_comm l.dims.w]
    omega
  · rw [width_bytes_of_eq h, scanlineSize_eq_packed, h, packedBytes, Nat.mul_comm l.dims.w]
    omega

theorem rowPart_copies (junk : UInt8 × UInt8) (hbt : l.OfBits) (hin : Inside l roi) (hn : n = l.lineChannels)
    (hf : l.scanlineSize < 2 ^ 32) (hr : l.width.bytes * (n * roi.dims.w) < 2 ^ 32)
    (hln : l.bps = 1 → u32 (n * l.dims.w) + 8 ≤ 2 ^ 32) (size : ℕ) (bytes : ℕ → UInt8) :
    ∃ p, rowPart l.width l junk n roi ⟨size, bytes⟩ = .ok (some p) ∧ p.count = l.width.bytes * (n * roi.dims.w) ∧
      ∀ q, ∀ b < l.width.bytes,
        p.src.get (p.start + (l.width.bytes * q + b)) = copiedByte l junk n roi bytes q b := by
  have hx : n * roi.x ≤ n * l.dims.w := Nat.mul_le_mul_left _ (by have := hin.columns; omega)
  rcases hbt with h1 | h8 | h16
  · have hw : l.width.bytes = 1 := width_bytes_of_ne (by omega)
    rw [hw, Nat.one_mul] at hr
    obtain ⟨line, hl, hd⟩ := (unpack_ends l.width (by decide : 0 < 8) (hln h1) fun g k =>
      (if (0x80 >>> UInt8.ofNat k) &&& bytes g ≠ 0 then (blackWhite junk l.photo).2
        else (blackWhite junk l.photo).1).toNat).exists_ok
    refine ⟨⟨line, u32 (n * roi.x), n * roi.dims.w⟩, ?_, by rw [hw, Nat.one_mul], fun q b hb => ?_⟩
    · simp only [rowPart, h1, one2eight, hl, hw, u32_of_lt hr, Nat.one_mul]
      rfl
    · obtain rfl : b = 0 := by omega
      simp only [copiedByte, h1, if_true, hw, Nat.one_mul, Nat.add_zero]
      split_ifs with hlt
      · have hg := hd.get _ hlt hlt 0 (by omega)
        rw [hw, Nat.one_mul, Nat.add_zero] at hg
        rw [hg]
        simp [sampleByte, h1]
      · exact hd.rest _ (by rw [hw]; omega)
  · have hw : l.width.bytes = 1 := width_bytes_of_ne (by omega)
    rw [scanlineSize_eq (.inl h8), hw, ← hn, Nat.one_mul] at hf
    rw [hw, Nat.one_mul] at hr
    refine ⟨⟨⟨size, bytes⟩, n * roi.x, n * roi.dims.w⟩, ?_, by rw [hw, Nat.one_mul], fun q b hb => ?_⟩
    · simp only [rowPart, h8, u32_of_lt hr, u32_of_lt (hx.trans_lt hf)]
    · simp only [copiedByte, sampleByte, h8, hw]
      norm_num [Nat.add_assoc]
  · have hw : l.width.bytes = 2 := width_bytes_of_eq h16
    have hp : l.psiz = 2 := by simp [Layout.psiz, h16]
    rw [scanlineSize_eq (.inr h16), hw, ← hn] at hf
    rw [hw] at hr
    refine ⟨⟨⟨size, bytes⟩, n * roi.x * 2, n * roi.dims.w * 2⟩, ?_, ?_, fun q b hb => ?_⟩
    · simp only [rowPart, h16, hp, u32_of_lt (show n * roi.dims.w * 2 < 2 ^ 32 by omega),
        u32_of_lt (show n * roi.x * 2 < 2 ^ 32 by omega)]
    · rw [hw]
      exact Nat.mul_comm _ _
    · simp only [copiedByte, sampleByte, h16, hw]
      norm_num
      congr 1
      ring

/-- No number of 32 bits overflows. -/
structure Fits32 (l : Layout) (roi : Rect) : Prop where
  scanline : l.scanlineSize < 2 ^ 32
  samples : roi.dims.w * roi.dims.h * l.nc < 2 ^ 32

theorem Fits32.row (h : Fits32 l roi) (hb : l.OfBits) (hin : Inside l roi) (hn : l.lineChannels = l.nc) :
    l.width.bytes * (l.nc * roi.dims.w) < 2 ^ 32 := by
  have hc : l.nc * roi.dims.w ≤ l.nc * l.dims.w := Nat.mul_le_mul_left _ (by have := hin.columns; omega)
  rcases hb with h1 | h8 | h16
  · have hr : l.nc * roi.dims.w ≤ roi.dims.w * roi.dims.h * l.nc := by
      calc l.nc * roi.dims.w = roi.dims.w * 1 * l.nc := by ring
        _ ≤ roi.dims.w * roi.dims.h * l.nc := by gcongr; exact roi.dims.h_pos
    rw [width_bytes_of_ne (by omega), Nat.one_mul]
    exact hr.trans_lt h.samples
  · have := scanlineSize_eq (.inl h8)
    exact (Nat.mul_le_mul_left _ hc).trans_lt (by rw [← hn, ← this]; exact h.scanline)
  · have := scanlineSize_eq (.inr h16)
    exact (Nat.mul_le_mul_left _ hc).trans_lt (by rw [← hn, ← this]; exact h.scanline)

/-- All rows have been copied to their places. -/
def Copied (l : Layout) (junk : UInt8 × UInt8) (rows : ℕ → ℕ → ℕ → UInt8) (roi : Rect) (out : Buffer UInt8) : Prop :=
  out.size = l.width.bytes * (roi.dims.w * roi.dims.h * l.nc) ∧
    ∀ x < roi.dims.w, ∀ y < roi.dims.h, ∀ c < l.nc, ∀ b < l.width.bytes,
      out.get (l.width.bytes * index roi.dims.w l.nc x y c + b) =
        copiedByte l junk l.nc roi (rows (roi.y + y) 0) (l.nc * x + c) b

theorem readRows_copied (junk : UInt8 × UInt8) (hbt : l.OfBits) (hin : Inside l roi)
    (hn : l.lineChannels = l.nc) (hf : Fits32 l roi)
    (hl : LineFits l) {dest : ℕ → ℕ} (count : ℕ) (ha : l.compressed = true ∨ count = roi.dims.h)
    (hd : ∀ y < roi.dims.h, dest (roi.y + y) = l.nc * y * roi.dims.w) (rows : ℕ → ℕ → ℕ → UInt8) :
    Ends (readRows l.width l junk (fun i c => some (rows i c)) roi l.nc 0 dest count
      (.const (l.width.bytes * (roi.dims.w * roi.dims.h * l.nc)) 0)) (Copied l junk rows roi) fun _ => False := by
  set bytes := l.width.bytes with hby
  set len := bytes * (l.nc * roi.dims.w) with hln
  have hps : 0 < bytes := l.width.bytes_pos
  have hr : ∀ i, readScanline l (fun i c => some (rows i c)) i 0 = .ok ⟨l.scanlineSize, rows i 0⟩ :=
    fun i => readScanline_of_fits rfl hf.scanline
  refine (readRows_ends hin ha (fun y buf =>
      buf.size = bytes * (roi.dims.w * roi.dims.h * l.nc) ∧
      buf.Rows len (fun y j => copiedByte l junk l.nc roi (rows (roi.y + y) 0) (j / bytes) (j % bytes)) y)
    ⟨rfl, Buffer.rows_zero _ _ _⟩ (fun i _ => by rw [hr]; trivial) ?_).imp
    fun out h => ⟨h.1, fun x hx y hy c hc b hb => ?_⟩
  swap
  · rw [← hby] at hb ⊢
    have hj : bytes * (l.nc * x + c) + b < len := by
      have hi := index_byte_lt hx one_pos hc hb
      simp only [index, Nat.zero_mul, Nat.zero_add, Nat.mul_one] at hi
      rwa [hln, Nat.mul_comm l.nc roi.dims.w]
    have hg := h.2 y hy _ hj
    simp only [Nat.mul_add_div hps, Nat.div_eq_of_lt hb, Nat.mul_add_mod, Nat.mod_eq_of_lt hb, Nat.add_zero] at hg
    rw [← hg]
    congr 1
    simp only [index, hln]
    ring
  · rintro y hy scan buf hs ⟨hsz, hdn⟩
    rw [hr] at hs
    cases hs
    obtain ⟨p, hp, hcn, hsr⟩ := rowPart_copies junk hbt hin hn.symm hf.scanline
      (hf.row hbt hin hn) hl l.scanlineSize (rows (roi.y + y) 0)
    have hrw : l.nc * y * roi.dims.w + l.nc * roi.dims.w ≤ roi.dims.w * roi.dims.h * l.nc := by
      calc l.nc * y * roi.dims.w + l.nc * roi.dims.w = roi.dims.w * (y + 1) * l.nc := by ring
        _ ≤ roi.dims.w * roi.dims.h * l.nc := by gcongr; exact hy
    have hpl : bytes * (l.nc * y * roi.dims.w) = len * y := by rw [hln]; ring
    have hrm : len * y + len ≤ buf.size := by
      rw [hsz, ← hpl, hln, ← Nat.mul_add]
      exact Nat.mul_le_mul_left _ hrw
    simp only [copyRow, hp, ok_bind, hd y hy, hcn, ← hby, ← hln, hpl]
    rw [Buffer.copy_of_le _ hrm]
    refine ⟨hsz, hdn.blit fun j hj => ?_⟩
    rw [← hsr _ _ (Nat.mod_lt j hps), ← hby, Nat.div_add_mod]

theorem sourceByte_of_contig (h : l.planar = .contig) (rows : ℕ → ℕ → ℕ → UInt8) (x y c b : ℕ) :
    sourceByte l junk rows x y c b = sampleByte l junk (rows y 0) (l.nc * x + c) b := by
  rw [sourceByte, h]

theorem region_size (roi : Rect) (nc : ℕ) : roi.dims.h * roi.dims.w * nc = roi.dims.w * roi.dims.h * nc := by
  rw [Nat.mul_comm roi.dims.h]

theorem copied_ends (junk : UInt8 × UInt8) (hbt : l.OfBits) (hin : Inside l roi) (hc : l.planar = .contig)
    (hf : Fits32 l roi) (hln : LineFits l) (rows : ℕ → ℕ → ℕ → UInt8) :
    Ends (readStandardData l.width l junk (fun i c => some (rows i c)) roi) (Copied l junk rows roi)
      fun _ => False := by
  have hn := Layout.lineChannels_of_contig hc
  simp only [readStandardData, region_size, u32_of_lt hf.samples, hc]
  refine readRows_copied junk hbt hin hn hf hln _ (.inr rfl) (fun y hy => ?_) rows
  rw [contigDest, Nat.add_sub_cancel_left, u32_of_lt]
  refine lt_of_le_of_lt ?_ hf.samples
  calc l.nc * y * roi.dims.w = roi.dims.w * y * l.nc := by ring
    _ ≤ roi.dims.w * roi.dims.h * l.nc := by gcongr

/-- A byte whose samples are zero. -/
def blank (l : Layout) : UInt8 := if l.bps = 1 ∧ l.photo = .minIsWhite then 0xff else 0x00

/-- A byte whose samples are of the full scale. -/
def ink (l : Layout) : UInt8 := if l.bps = 1 ∧ l.photo = .minIsWhite then 0x00 else 0xff

/-- A blank scanline with one dot. -/
def dotted (l : Layout) (p : ℕ) (r : ℕ) : UInt8 :=
  if r = p / 8 then blank l ^^^ (0x80 >>> UInt8.ofNat (p % 8)) else blank l

theorem mask_and_blank : ∀ k < 8, (0x80 >>> UInt8.ofNat k) &&& (0xff : UInt8) ≠ 0 := by decide

theorem mask_and_dot : ∀ k < 8, ∀ k' < 8,
    ((0x80 >>> UInt8.ofNat k) &&& ((0x00 : UInt8) ^^^ (0x80 >>> UInt8.ofNat k')) ≠ 0 ↔ k = k') ∧
    ((0x80 >>> UInt8.ofNat k) &&& ((0xff : UInt8) ^^^ (0x80 >>> UInt8.ofNat k')) ≠ 0 ↔ k ≠ k') := by
  decide

theorem sampleByte_blank (junk : UInt8 × UInt8) (hpl : l.Plain) {bytes : ℕ → UInt8}
    (h : ∀ r, bytes r = blank l) (p b : ℕ) : sampleByte l junk bytes p b = 0 := by
  rw [sampleByte, h, h]
  rcases hpl with ⟨h1, hp | hp⟩ | h8 | h16
  · simp [blank, h1, hp, blackWhite]
  · have := mask_and_blank (p % 8) (Nat.mod_lt _ (by decide))
    simp [blank, h1, hp, blackWhite, this]
  · simp [blank, h8]
  · simp [blank, h16]

theorem sampleByte_ink (hpl : l.Plain) {bytes : ℕ → UInt8} (h : ∀ r, bytes r = ink l) (p b : ℕ) :
    sampleByte l junk bytes p b = 0xff := by
  rw [sampleByte, h, h]
  rcases hpl with ⟨h1, hp | hp⟩ | h8 | h16
  · have := mask_and_blank (p % 8) (Nat.mod_lt _ (by decide))
    simp [ink, h1, hp, blackWhite, this]
  · simp [ink, h1, hp, blackWhite]
  · simp [ink, h8]
  · simp [ink, h16]

theorem sampleByte_dotted (hpl : l.Plain) (h1 : l.bps = 1) (p p' b : ℕ) :
    sampleByte l junk (dotted l p) p' b = if p' = p then 0xff else 0 := by
  have hp : l.photo = .minIsBlack ∨ l.photo = .minIsWhite := by
    rcases hpl with ⟨-, h⟩ | h | h
    · exact h
    all_goals omega
  by_cases hby : p' / 8 = p / 8
  · obtain ⟨hbl, hw⟩ := mask_and_dot (p' % 8) (Nat.mod_lt _ (by decide)) (p % 8) (Nat.mod_lt _ (by decide))
    have hs : p' % 8 = p % 8 ↔ p' = p := by omega
    rcases hp with hp | hp
    · have hb : blank l = 0x00 := by simp [blank, hp]
      simp only [sampleByte, h1, if_true, dotted, hby, hb, hp, blackWhite, hbl, hs]
    · have hb : blank l = 0xff := by simp [blank, h1, hp]
      simp only [sampleByte, h1, if_true, dotted, hby, hb, hp, blackWhite, hw, ne_eq, hs, ite_not]
  · have hne : p' ≠ p := fun h => hby (by rw [h])
    have hc : ∀ r, (fun _ : ℕ => blank l) r = blank l := fun _ => rfl
    have hbn := sampleByte_blank junk hpl hc p' b
    rw [if_neg hne, ← hbn]
    simp [sampleByte, h1, dotted, hby]

variable {scan : Buffer UInt8}

/-! ### Where the region is not read -/

variable {dest : ℕ} {w : Width} {buf : Buffer UInt8}

theorem copyRow_size :
    Ends (copyRow w l junk n roi dest scan buf) (fun out => out.size = buf.size) fun _ => True := by
  refine copyRow_ends ((ends_trivial _).imp fun _ _ _ _ => trivial) rfl fun p _ => ?_
  exact Buffer.copy_ends (fun _ => rfl) fun _ => trivial

theorem copyRow_first (hd : dest ≠ 0) :
    Ends (copyRow w l junk n roi dest scan buf) (fun out => out.get 0 = buf.get 0) fun _ => True := by
  refine copyRow_ends ((ends_trivial _).imp fun _ _ _ _ => trivial) rfl fun p _ => ?_
  refine Buffer.copy_ends (fun _ => ?_) fun _ => trivial
  exact Buffer.get_blit_of_disjoint _ _ _ _ _ (.inl (Nat.mul_pos w.bytes_pos (Nat.pos_of_ne_zero hd)))

variable {rows : ℕ → ℕ → ℕ → UInt8}

theorem readScanline_eq {i c : ℕ} (h : readScanline l (fun i c => some (rows i c)) i c = .ok scan) :
    l.scanlineSize < 2 ^ 32 ∧ scan.get = rows i c := by
  rcases lt_or_ge l.scanlineSize (2 ^ 32) with hlt | hge
  · rw [readScanline_of_fits (rfl : (fun i c => some (rows i c)) i c = _) hlt] at h
    exact ⟨hlt, by rw [← Except.ok.inj h]⟩
  · rw [readScanline_of_large (rfl : (fun i c => some (rows i c)) i c = _) hge] at h
    cases h

theorem readStandardData_size (w : Width) (scans : Scans) :
    Ends (readStandardData w l junk scans roi)
      (fun out => out.size = w.bytes * u32 (roi.dims.w * roi.dims.h * l.nc)) fun _ => True := by
  rw [readStandardData, region_size]
  cases l.planar with
  | contig =>
    refine readRows_keeps (fun buf => buf.size = w.bytes * u32 (roi.dims.w * roi.dims.h * l.nc)) rfl
      (fun _ => ends_trivial _) fun i scan buf _ _ _ hb => ?_
    exact copyRow_size.imp fun out ho => ho.trans hb
  | separate =>
    refine (ends_trivial _).bind fun planes _ => ?_
    rw [separateToContig, show l.nc * roi.dims.h * roi.dims.w = roi.dims.w * roi.dims.h * l.nc by ring]
    refine forCount_ends (fun _ (out : Buffer UInt8) => out.size = w.bytes * u32 (roi.dims.w * roi.dims.h * l.nc)) rfl
      fun c out _ ho => ?_
    refine forCount_ends (fun _ (out : Buffer UInt8) => out.size = w.bytes * u32 (roi.dims.w * roi.dims.h * l.nc)) ho
      fun y out _ ho => ?_
    refine forCount_ends (fun _ (out : Buffer UInt8) => out.size = w.bytes * u32 (roi.dims.w * roi.dims.h * l.nc)) ho
      fun x out _ ho => ?_
    exact Buffer.copy_ends (fun _ => ho) fun _ => trivial

theorem samples_lt_of_last {nc size : ℕ} (hnc : 0 < nc) (hs : size = w.bytes * u32 (roi.dims.w * roi.dims.h * nc))
    (hall : ∀ x < roi.dims.w, ∀ y < roi.dims.h, ∀ c < nc, w.bytes * index roi.dims.w nc x y c < size) :
    roi.dims.w * roi.dims.h * nc < 2 ^ 32 := by
  have hl := hall _ (Nat.sub_lt roi.dims.w_pos one_pos) _ (Nat.sub_lt roi.dims.h_pos one_pos) _ (Nat.sub_lt hnc one_pos)
  rw [hs, Nat.mul_lt_mul_left w.bytes_pos] at hl
  have hi : index roi.dims.w nc (roi.dims.w - 1) (roi.dims.h - 1) (nc - 1) + 1 =
      roi.dims.w * roi.dims.h * nc := by
    obtain ⟨a, ha⟩ := Nat.exists_eq_succ_of_ne_zero roi.dims.w_pos.ne'
    obtain ⟨b, hb⟩ := Nat.exists_eq_succ_of_ne_zero roi.dims.h_pos.ne'
    obtain ⟨d, hd⟩ := Nat.exists_eq_succ_of_ne_zero hnc.ne'
    simp only [index, ha, hb, hd, Nat.succ_eq_add_one, Nat.add_sub_cancel]
    ring
  have hm : u32 (roi.dims.w * roi.dims.h * nc) < 2 ^ 32 := Nat.mod_lt _ (by decide)
  have : u32 (roi.dims.w * roi.dims.h * nc) ≤ roi.dims.w * roi.dims.h * nc := Nat.mod_le _ _
  omega

theorem samples_lt_of_reads (h : ReadsRegion l junk rows roi) : roi.dims.w * roi.dims.h * l.nc < 2 ^ 32 := by
  obtain ⟨out, ho, hg⟩ := h
  exact samples_lt_of_last l.nc_pos ((readStandardData_size _ _).of_ok ho)
    fun x hx y hy c hc => (hg x hx y hy c hc 0 l.width.bytes_pos).1

theorem contig_of_reads (hpn : l.Plain) (h : ReadsRegion l junk (fun _ _ _ => ink l) roi) : l.planar = .contig := by
  cases hp : l.planar with
  | contig => rfl
  | separate =>
    exfalso
    have hsm := samples_lt_of_reads h
    obtain ⟨out, ho, hg⟩ := h
    have hs := (hg 0 roi.dims.w_pos 0 roi.dims.h_pos 0 l.nc_pos 0 l.width.bytes_pos).2
    have hi : sourceByte l junk (fun _ _ _ => ink l) (roi.x + 0) (roi.y + 0) 0 0 = 0xff := by
      rw [sourceByte, hp]
      exact sampleByte_ink hpn (fun _ => rfl) _ _
    simp only [readStandardData, region_size, hp] at ho
    have hz : Ends (forRange (readPlane l.width l junk (fun _ _ => some fun _ => ink l) roi) l.nc 0
        (.const (l.width.bytes * u32 (roi.dims.w * roi.dims.h * l.nc)) 0)) (fun planes => planes.get 0 = 0)
        fun _ => True := by
      refine forCount_ends (fun _ (buf : Buffer UInt8) => buf.get 0 = 0) rfl fun c buf _ hb => ?_
      refine readRows_keeps (fun buf => buf.get 0 = 0) hb (fun _ => ends_trivial _) fun i scan buf _ _ _ hb => ?_
      exact (copyRow_first (planeDest_pos l roi i)).imp fun out ho => ho.trans hb
    have hfn := hz.bind (f := fun planes => separateToContig l.width planes roi.dims.w roi.dims.h l.nc roi.dims.w)
      (R := fun out => out.get (l.width.bytes * index roi.dims.w l.nc 0 0 0 + 0) = 0) fun planes hpl => by
        refine (separateToContig_ends l.width planes hsm).mono (fun out ho => ?_) fun _ hf => hf.elim
        have hlt : 0 * roi.dims.h * roi.dims.w + 0 * roi.dims.w + 0 < l.nc * roi.dims.h * roi.dims.w := by
          simpa using ⟨⟨l.nc_pos, roi.dims.h_pos⟩, roi.dims.w_pos⟩
        rw [ho.get 0 roi.dims.w_pos 0 roi.dims.h_pos 0 l.nc_pos hlt 0 l.width.bytes_pos]
        simpa using hpl
    rw [hfn.of_ok ho, hi] at hs
    exact absurd hs (by decide)

theorem not_reads_of_rows (hin : Inside l roi) (hc : l.planar = .contig) (rows : ℕ → ℕ → ℕ → UInt8)
    (hfl : ∀ i c dest scan buf, readScanline l (fun i c => some (rows i c)) i c = .ok scan →
      Ends (copyRow l.width l junk l.nc roi dest scan buf) (fun _ => False) fun _ => True) :
    ¬ ReadsRegion l junk rows roi := by
  rintro ⟨out, ho, -⟩
  have hr : Ends (readStandardData l.width l junk (fun i c => some (rows i c)) roi) (fun _ => False)
      fun _ => True := by
    rw [readStandardData, hc]
    refine (readRows_ends hin (.inr rfl) (fun y _ => y = 0) rfl (fun _ _ => ends_trivial _)
      fun y _ scan buf hs _ => ?_).imp fun _ h0 => absurd h0 roi.dims.h_pos.ne'
    exact (hfl _ _ _ _ buf hs).imp fun _ hf => hf.elim
  exact hr.of_ok ho

theorem scanline_lt_of_reads (hin : Inside l roi) (hd : l.planar = .contig)
    (h : ReadsRegion l junk rows roi) : l.scanlineSize < 2 ^ 32 := by
  by_contra hl
  refine not_reads_of_rows hin hd rows (fun i c dest scan buf hs => ?_) h
  exact absurd (readScanline_eq hs).1 hl

theorem lineFits_of_reads (hin : Inside l roi) (hd : l.planar = .contig)
    (h : ReadsRegion l junk rows roi) : LineFits l := by
  intro h1
  by_contra hl
  refine not_reads_of_rows hin hd rows (fun i c dest scan buf hs => ?_) h
  have he : ∀ value, unpack l.width 8 (u32 (l.nc * l.dims.w)) value = .error .overrun :=
    fun _ => if_pos (by omega)
  simp only [copyRow, rowPart, h1, one2eight, he]
  trivial

end

/-- The one-bit samples copied are unpacked. -/
def RowUnpacked (l : Layout) (roi : Rect) : Prop :=
  l.bps = 1 → l.nc * (roi.x + roi.dims.w) ≤ u32 (l.nc * l.dims.w)

/-- 640 by 480 pixels, compressed, contiguous. -/
def photo : Layout where
  dims := { w := 640, h := 480 }
  nc := 3
  bpsTag := some 16
  photo := .other
  planar := .contig
  compressed := true
  scanlineSize := 3840

/-- Two by two pixels in planes. -/
def inPlanes (nc : ℕ) (h : 0 < nc) : Layout where
  dims := ⟨2, 2, Nat.two_pos, Nat.two_pos⟩
  nc := nc
  nc_pos := h
  bpsTag := some 8
  photo := .other
  planar := .separate
  compressed := false
  scanlineSize := 2
  scanline_bytes := by simp [Planar.channels, packedBytes]
  tiles_counted := by simp [tileCount]

end Sipi.Formats
