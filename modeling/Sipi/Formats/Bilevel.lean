import Sipi.Formats.Scanlines
import Mathlib.Data.UInt

/-!
# Writing a bilevel TIFF

`SipiIOTiff::write` packs a black-is-zero or white-is-zero image whose samples are zero or full scale, eight to a
byte (`cvrt8BitTo1bit`), and `one2eight` unpacks it when the file is read.

## Honest scope

`libtiff` returns the rows it was given.
-/

namespace Sipi.Formats

open Sipi.Theory

/-! ### The image and the scan -/

theorem photo_of_false {photo : Photometric} (h : false = true) : photo = .other := by cases h

/-- What writing a TIFF needs of an image. -/
structure TiffShape where
  nx : ℕ
  ny : ℕ
  nc : ℕ
  nc_pos : 0 < nc
  photo : Photometric
  cielab : Bool := false
  cielab_photo : cielab = true → photo = .other := by exact photo_of_false
  width : Width

/-- `bps`. -/
def TiffShape.bps (s : TiffShape) : ℕ := 8 * s.width.bytes

/-- `SipiImage`. -/
structure TiffSource extends TiffShape where
  pixels : Buffer width.Sample
  size_eq : pixels.size = nx * ny * nc := by rfl

variable {p : ℕ}

namespace TiffSource

/-- Zero or full scale. -/
def Extreme (img : TiffSource) (p : ℕ) : Prop :=
  img.pixels.get p = 0 ∨ img.pixels.get p = BitVec.allOnes _

instance (img : TiffSource) (p : ℕ) : Decidable (img.Extreme p) := inferInstanceAs (Decidable (_ ∨ _))

/-- `its_1_bit`: the scan looks at `nx * ny` samples. -/
def its1Bit (img : TiffSource) : Bool :=
  (img.photo = .minIsWhite ∨ img.photo = .minIsBlack) ∧ ∀ i < img.nx * img.ny, img.Extreme i

theorem its1Bit_iff (img : TiffSource) :
    img.its1Bit = true ↔
      (img.photo = .minIsWhite ∨ img.photo = .minIsBlack) ∧ ∀ i < img.nx * img.ny, img.Extreme i := decide_eq_true_iff

theorem scanned_lt (img : TiffSource) (hp : p < img.nx * img.ny) : p < img.pixels.size := by
  rw [img.size_eq]
  exact hp.trans_le (Nat.le_mul_of_pos_right _ img.nc_pos)

theorem Extreme.lt_iff {img : TiffSource} (h : img.Extreme p) :
    128 < (img.pixels.get p).toNat ↔ img.pixels.get p ≠ 0 := by
  rcases h with hz | hf
  · simp [hz]
  · have hl : 128 < 2 ^ (8 * img.width.bytes) - 1 := by cases img.width <;> decide
    rw [hf, BitVec.toNat_allOnes]
    refine iff_of_true hl fun h => ?_
    have := congrArg BitVec.toNat h
    simp only [BitVec.toNat_allOnes, BitVec.ofNat_eq_ofNat, BitVec.toNat_ofNat, Nat.zero_mod] at this
    omega

end TiffSource

/-- How packing fails, or what it must not do. -/
inductive BilevelFault where
  | photometric
  | bits (bps : ℕ)
  | overrun
  | runsOn
  deriving DecidableEq

/-- `mask[k]`. -/
def mask (k : ℕ) : UInt8 := 0x80 >>> UInt8.ofNat k

/-- The operator `!` on a byte. -/
def lnot (v : UInt8) : UInt8 := if v = 0 then 1 else 0

/-- `outbuf[i] |= v`. -/
def orInto (outbuf : Buffer UInt8) (i : ℕ) (v : UInt8) : Except BilevelFault (Buffer UInt8) :=
  outbuf.fetch .overrun i >>= fun old => outbuf.put .overrun i (old ||| v)

namespace TiffSource

/-- `sll`: the bytes of a packed row. -/
def sll (img : TiffSource) : ℕ := u32 ((img.nx + 7) / 8)

/-- What a sample in column `x` puts into its byte. -/
def bitsOf (img : TiffSource) (x : ℕ) (v : img.width.Sample) : UInt8 :=
  match img.photo with
  | .minIsBlack => if 128 < v.toNat then mask (x % 8) else lnot (mask (x % 8))
  | _ => if 128 < v.toNat then lnot (mask (x % 8)) else mask (x % 8)

/-- The body of the loops. -/
def packSample (img : TiffSource) (x y : ℕ) (outbuf : Buffer UInt8) : Except BilevelFault (Buffer UInt8) :=
  img.pixels.fetch .overrun (y * img.nx + x) >>= fun v =>
    orInto outbuf (u32 (y * img.sll + x / 8)) (img.bitsOf x v)

/-- What the packed rows hold at first. -/
def fill (img : TiffSource) : UInt8 :=
  match img.photo with
  | .minIsBlack => 0x00
  | _ => 0xff

/-- `cvrt8BitTo1bit`. -/
def cvrt8BitTo1bit (img : TiffSource) : Except BilevelFault (Buffer UInt8) :=
  if img.photo ≠ .minIsWhite ∧ img.photo ≠ .minIsBlack then .error .photometric
  else if img.bps ≠ 8 then .error (.bits img.bps)
  else
    forCounter (2 ^ 32) .runsOn img.ny (fun y => forCounter (2 ^ 32) .runsOn img.nx fun x => img.packSample x y)
      (.const (img.sll * img.ny) img.fill)

end TiffSource

/-- Bit `k` of a byte is set, from the highest. -/
def HasBit (v : UInt8) (k : ℕ) : Prop := mask k &&& v ≠ 0

instance (v : UInt8) (k : ℕ) : Decidable (HasBit v k) := inferInstanceAs (Decidable (_ ≠ _))

theorem lnot_mask : ∀ k < 8, lnot (mask k) = 0 := by decide

theorem mask_and_mask : ∀ k < 8, ∀ k' < 8, mask k &&& mask k' ≠ 0 ↔ k = k' := by decide

theorem hasBit_ff : ∀ k < 8, HasBit 0xff k := by decide

theorem not_hasBit_zero (k : ℕ) : ¬ HasBit 0 k := by simp [HasBit]

theorem hasBit_or (a b : UInt8) (k : ℕ) : HasBit (a ||| b) k ↔ HasBit a k ∨ HasBit b k := by
  have hd : mask k &&& (a ||| b) = (mask k &&& a) ||| (mask k &&& b) :=
    UInt8.toBitVec_inj.1 BitVec.and_or_distrib_left
  rw [HasBit, hd, ne_eq, UInt8.or_eq_zero_iff, not_and_or]
  rfl

variable {k : ℕ}

theorem hasBit_mask {k' : ℕ} (hk : k < 8) (hk' : k' < 8) : HasBit (mask k') k ↔ k = k' := mask_and_mask k hk k' hk'

theorem ff_or (v : UInt8) : 0xff ||| v = 0xff := UInt8.neg_one_or

/-! ### What is packed -/

section
variable {img : TiffSource}

variable {out : Buffer UInt8} {i : ℕ}

theorem orInto_ends (hi : i < out.size) (v : UInt8) {Q : Buffer UInt8 → Prop}
    {E : BilevelFault → Prop} (h : Q (out.set i (out.get i ||| v))) : Ends (orInto out i v) Q E := by
  rw [orInto, Buffer.fetch_of_lt _ hi, ok_bind, Buffer.put_of_lt _ hi]
  exact h

/-- A sample that belongs into bit `k` of byte `b`. -/
def Marked (img : TiffSource) (q b k : ℕ) : Prop :=
  ∃ x y, x < img.nx ∧ y * img.nx + x < q ∧ u32 (y * img.sll + x / 8) = b ∧ x % 8 = k ∧
    img.pixels.get (y * img.nx + x) ≠ 0

/-- The samples before `q` are packed. -/
structure Packed (img : TiffSource) (q : ℕ) (out : Buffer UInt8) : Prop where
  size : out.size = img.sll * img.ny
  black : img.photo = .minIsBlack → ∀ b, ∀ k < 8, HasBit (out.get b) k ↔ Marked img q b k
  white : img.photo = .minIsWhite → ∀ b, out.get b = 0xff

/-- The counters can count rows and columns. -/
structure Counted (img : TiffSource) : Prop where
  /-- The rows. -/
  ny_lt : img.ny < 2 ^ 32
  /-- The columns, if there is a row. -/
  nx_lt : 0 < img.ny → img.nx < 2 ^ 32

theorem sll_eq (hnx : img.nx < 2 ^ 32) : img.sll = (img.nx + 7) / 8 := u32_of_lt (by omega)

variable {x y : ℕ}

theorem byte_lt (hnx : img.nx < 2 ^ 32) (hx : x < img.nx) (hy : y < img.ny) :
    u32 (y * img.sll + x / 8) < img.sll * img.ny := by
  have hc : x / 8 < img.sll := by
    rw [sll_eq hnx]
    omega
  calc u32 (y * img.sll + x / 8) ≤ y * img.sll + x / 8 := Nat.mod_le _ _
    _ < y * img.sll + img.sll := Nat.add_lt_add_left hc _
    _ = img.sll * (y + 1) := by ring
    _ ≤ img.sll * img.ny := Nat.mul_le_mul_left _ hy

theorem marked_succ {b : ℕ} (hx : x < img.nx) :
    Marked img (y * img.nx + x + 1) b k ↔ Marked img (y * img.nx + x) b k ∨
      (u32 (y * img.sll + x / 8) = b ∧ x % 8 = k ∧ img.pixels.get (y * img.nx + x) ≠ 0) := by
  constructor
  · rintro ⟨x', y', hx', hlt, hb, hk, hne⟩
    rcases Nat.lt_succ_iff_lt_or_eq.1 hlt with hbf | hs
    · exact .inl ⟨x', y', hx', hbf, hb, hk, hne⟩
    · have hp : index img.nx 1 x' y' 0 = index img.nx 1 x y 0 := by simpa [index] using hs
      obtain ⟨rfl, rfl, -⟩ := index_inj hx' Nat.one_pos hx Nat.one_pos hp
      exact .inr ⟨hb, hk, hne⟩
  · rintro (⟨x', y', hx', hlt, hb, hk, hne⟩ | ⟨hb, hk, hne⟩)
    · exact ⟨x', y', hx', hlt.trans (Nat.lt_succ_self _), hb, hk, hne⟩
    · exact ⟨x, y, hx, Nat.lt_succ_self _, hb, hk, hne⟩

theorem hasBit_bitsOf (hph : img.photo = .minIsBlack) (hp : img.Extreme p) (hk : k < 8) :
    HasBit (img.bitsOf x (img.pixels.get p)) k ↔ x % 8 = k ∧ img.pixels.get p ≠ 0 := by
  have hc : x % 8 < 8 := Nat.mod_lt _ (by decide)
  simp only [TiffSource.bitsOf, hph, hp.lt_iff, lnot_mask _ hc]
  split_ifs with hne
  · rw [hasBit_mask hk hc, and_iff_left hne, eq_comm]
  · exact iff_of_false (not_hasBit_zero k) fun h => hne h.2

theorem packSample_ends (hnx : img.nx < 2 ^ 32) (hs : ∀ p < img.nx * img.ny, img.Extreme p)
    (hx : x < img.nx) (hy : y < img.ny) (ho : Packed img (y * img.nx + x) out) :
    Ends (img.packSample x y out) (Packed img (y * img.nx + x + 1)) fun _ => False := by
  have hp := place_lt hx hy
  rw [TiffSource.packSample, Buffer.fetch_of_lt _ (img.scanned_lt hp), ok_bind]
  refine orInto_ends (ho.size ▸ byte_lt hnx hx hy) _ ⟨ho.size, fun hbl b k hk => ?_, fun hw b => ?_⟩
  · rw [marked_succ hx, ← ho.black hbl b k hk]
    by_cases hb : b = u32 (y * img.sll + x / 8)
    · subst hb
      simp [hasBit_or, hasBit_bitsOf hbl (hs _ hp) hk]
    · rw [Buffer.get_set_of_ne _ hb]
      simp [Ne.symm hb]
  · by_cases hb : b = u32 (y * img.sll + x / 8)
    · subst hb
      rw [Buffer.get_set_self, ho.white hw, ff_or]
    · rw [Buffer.get_set_of_ne _ hb, ho.white hw]

theorem packed_ends (hc : Counted img) (h1 : img.its1Bit = true) (hby : img.width = .byte) :
    Ends img.cvrt8BitTo1bit (Packed img (img.nx * img.ny)) fun _ => False := by
  obtain ⟨hp, hsc⟩ := img.its1Bit_iff.1 h1
  have hs : Packed img 0 (.const (img.sll * img.ny) img.fill) := by
    refine ⟨rfl, fun hb b k _ => ?_, fun hw b => by simp [TiffSource.fill, hw]⟩
    simp [TiffSource.fill, hb, Marked, not_hasBit_zero]
  rw [TiffSource.cvrt8BitTo1bit, if_neg (by tauto), if_neg (by simp [TiffShape.bps, hby, Width.bytes]),
    forCounter_of_lt hc.ny_lt]
  rcases Nat.eq_zero_or_pos img.ny with hz | hps
  · simpa [hz, forRange] using hs
  · simp only [forCounter_of_lt (hc.nx_lt hps)]
    exact forPixels_ends (Packed img) hs fun x hx y hy out => packSample_ends (hc.nx_lt hps) hsc hx hy

theorem counted_of_ok (h : img.cvrt8BitTo1bit = .ok out) : Counted img := by
  rw [TiffSource.cvrt8BitTo1bit] at h
  split_ifs at h with hp hb
  by_contra hn
  rcases Nat.lt_or_ge img.ny (2 ^ 32) with hlt | hge
  · have hw : 0 < img.ny ∧ 2 ^ 32 ≤ img.nx := by
      by_contra hs
      exact hn ⟨hlt, fun hps => by omega⟩
    rw [forCounter_of_lt hlt, forRange_error hw.1 (forCounter_of_ge hw.2 _ _ _)] at h
    cases h
  · rw [forCounter_of_ge hge] at h
    cases h

theorem byte_of_ok (h : img.cvrt8BitTo1bit = .ok out) : img.width = .byte := by
  rw [TiffSource.cvrt8BitTo1bit] at h
  split_ifs at h with hp hb
  cases hw : img.width with
  | byte => rfl
  | word => simp [TiffShape.bps, hw, Width.bytes] at hb

/-- Row `i`, as it is written and then unpacked. -/
def unpackRow (img : TiffSource) (buf : Buffer UInt8) (i : ℕ) : Except BilevelFault (Buffer UInt8) :=
  let scanlineSize := (img.nx * img.nc + 7) / 8
  -- the two values are set for either photometric interpretation
  let values := blackWhite (0, 0) img.photo
  if buf.size < i * img.sll + scanlineSize then .error .overrun
  else (one2eight .byte ⟨scanlineSize, fun b => buf.get (i * img.sll + b)⟩ (u32 (img.nc * img.nx))
    values.1 values.2).mapError fun _ => .overrun

/-- A row lies within the packed rows. -/
structure Fitting (img : TiffSource) : Prop where
  room : img.nc * img.nx ≤ 8 * ((img.nx + 7) / 8)
  count : img.nc * img.nx ≤ 2 ^ 32 - 8

theorem le_eight_of_room (hr : img.nc * img.nx ≤ 8 * ((img.nx + 7) / 8)) (hnc : 1 < img.nc) :
    img.nc * img.nx ≤ 8 := by
  have ht : 2 * img.nx ≤ img.nc * img.nx := Nat.mul_le_mul_right _ hnc
  omega

variable {buf : Buffer UInt8}

theorem unpackRow_ends (hnx : img.nx < 2 ^ 32) (hf : Fitting img)
    (hs : buf.size = img.sll * img.ny) (hi : i < img.ny) :
    ∃ line, unpackRow img buf i = .ok line ∧ ∀ j < img.nc * img.nx, line.get j =
      if HasBit (buf.get (i * img.sll + j / 8)) (j % 8) then (blackWhite (0, 0) img.photo).2
      else (blackWhite (0, 0) img.photo).1 := by
  have he : i * img.sll + (img.nx * img.nc + 7) / 8 ≤ buf.size := by
    have hr := hf.room
    rw [Nat.mul_comm img.nc, ← sll_eq hnx] at hr
    calc i * img.sll + (img.nx * img.nc + 7) / 8 ≤ i * img.sll + img.sll := by omega
      _ = img.sll * (i + 1) := by ring
      _ ≤ buf.size := hs ▸ Nat.mul_le_mul_left _ hi
  have hc := hf.count
  obtain ⟨line, hl, hvl⟩ := (@unpack_ends .byte 8 (img.nc * img.nx) (by decide) (by omega)
    fun g k => (if (0x80 >>> UInt8.ofNat k) &&& buf.get (i * img.sll + g) ≠ 0 then (blackWhite (0, 0) img.photo).2
      else (blackWhite (0, 0) img.photo).1).toNat).exists_ok
  refine ⟨line, ?_, fun j hj => ?_⟩
  · rw [unpackRow, if_neg (not_lt.2 he), u32_of_lt (by omega), one2eight, hl]
    rfl
  · have hv := hvl.get j hj hj 0 Nat.one_pos
    simp only [Width.bytes, Nat.one_mul, Nat.add_zero, pow_zero, Nat.div_one, UInt8.ofNat_toNat] at hv
    exact hv

theorem fitting_of_ok (hnx : img.nx < 2 ^ 32) {line : Buffer UInt8} (hsz : buf.size = img.sll * img.ny)
    (hp : 0 < img.ny) (h : unpackRow img buf (img.ny - 1) = .ok line) : Fitting img := by
  rw [unpackRow] at h
  split_ifs at h with hs
  have hr : img.nc * img.nx ≤ 8 * ((img.nx + 7) / 8) := by
    have hl : (img.ny - 1) * img.sll + img.sll = img.sll * img.ny := by
      obtain ⟨n, hn⟩ := Nat.exists_eq_add_one.2 hp
      rw [hn, Nat.add_sub_cancel]
      ring
    rw [Nat.mul_comm img.nc, ← sll_eq hnx]
    omega
  refine ⟨hr, ?_⟩
  have hlt : img.nc * img.nx < 2 ^ 32 := by
    rcases Nat.lt_or_ge 1 img.nc with hm | ho
    · have := le_eight_of_room hr hm
      omega
    · have : img.nc = 1 := Nat.le_antisymm ho img.nc_pos
      rwa [this, Nat.one_mul]
  by_contra hln
  rw [u32_of_lt hlt, one2eight, unpack, if_pos (by omega)] at h
  cases h

/-! ### The round trip -/

/-- What the 1-bit path should do with an image. -/
structure ComesBack (img : TiffSource) : Prop where
  extreme : ∀ p < img.nx * img.ny * img.nc, img.Extreme p
  unpacked : ∃ buf, img.cvrt8BitTo1bit = .ok buf ∧ ∀ i < img.ny, ∃ line, unpackRow img buf i = .ok line ∧
    ∀ j < img.nc * img.nx, line.get j = if img.pixels.get (i * (img.nc * img.nx) + j) = 0 then 0 else 255

/-- When it does. -/
structure Suits (img : TiffSource) : Prop where
  byte : img.width = .byte
  counted : Counted img
  fitting : 0 < img.ny → Fitting img
  black : img.photo = .minIsBlack → ∀ p < img.nx * img.ny * img.nc,
    (1 < img.nc ∧ img.nx ≤ p) ∨ 2 ^ 32 ≤ p / img.nx * ((img.nx + 7) / 8) + p % img.nx / 8 → img.pixels.get p = 0
  white : img.photo = .minIsWhite → ∀ p < img.nx * img.ny * img.nc, img.pixels.get p = 0

theorem sample_place (hp : p < img.nx * img.ny * img.nc) :
    p / (img.nc * img.nx) < img.ny ∧ p % (img.nc * img.nx) < img.nc * img.nx ∧
      p / (img.nc * img.nx) * (img.nc * img.nx) + p % (img.nc * img.nx) = p := by
  obtain ⟨hc, hr, heq⟩ := pixel_of_place (hp.trans_eq (show _ = img.nc * img.nx * img.ny by ring))
  exact ⟨hr, hc, heq⟩

theorem sample_lt {j : ℕ} (hi : i < img.ny) (hj : j < img.nc * img.nx) :
    i * (img.nc * img.nx) + j < img.nx * img.ny * img.nc :=
  (place_lt hj hi).trans_eq (by ring)

theorem row_lt (h : y * img.nx + x < img.nx * img.ny) : y < img.ny := by
  by_contra hge
  have := Nat.mul_le_mul_right img.nx (not_lt.1 hge)
  rw [Nat.mul_comm img.ny] at this
  omega

theorem marked_of_one (hnx : img.nx < 2 ^ 32)
    (hw : ∀ x < img.nx, ∀ y < img.ny, 2 ^ 32 ≤ y * img.sll + x / 8 → img.pixels.get (y * img.nx + x) = 0)
    {j : ℕ} (hi : i < img.ny) (hj : j < img.nx) :
    Marked img (img.nx * img.ny) (i * img.sll + j / 8) (j % 8) ↔ img.pixels.get (i * img.nx + j) ≠ 0 := by
  have hn : ∀ x < img.nx, ∀ y < img.ny, img.pixels.get (y * img.nx + x) ≠ 0 →
      u32 (y * img.sll + x / 8) = y * img.sll + x / 8 := by
    intro x hx y hy hne
    refine u32_of_lt ?_
    by_contra hl
    exact hne (hw x hx y hy (not_lt.1 hl))
  have hc : ∀ x < img.nx, x / 8 < img.sll := by
    intro x hx
    rw [sll_eq hnx]
    omega
  constructor
  · rintro ⟨x, y, hx, hlt, hb, hk, hne⟩
    rw [hn x hx y (row_lt hlt) hne] at hb
    have hp : index img.sll 1 (x / 8) y 0 = index img.sll 1 (j / 8) i 0 := by simpa [index] using hb
    obtain ⟨hd, rfl, -⟩ := index_inj (hc x hx) Nat.one_pos (hc j hj) Nat.one_pos hp
    obtain rfl : x = j := by omega
    exact hne
  · intro hne
    exact ⟨j, i, hj, place_lt hj hi, hn j hj i hi hne, rfl, hne⟩

theorem marked_of_many (hny : img.ny < 2 ^ 32) (hnc : 1 < img.nc) (hl : img.nc * img.nx ≤ 8) {j : ℕ}
    (hi : i < img.ny) (hj : j < img.nc * img.nx) :
    Marked img (img.nx * img.ny) (i * img.sll + j / 8) (j % 8) ↔
      j < img.nx ∧ img.pixels.get (i * img.nx + j) ≠ 0 := by
  have ht : 2 * img.nx ≤ img.nc * img.nx := Nat.mul_le_mul_right _ hnc
  have hsl : img.sll = 1 := by
    have hp : 0 < img.nx := Nat.pos_of_ne_zero fun hz => by simp [hz] at hj
    rw [sll_eq (by omega)]
    omega
  have hs : ∀ x < img.nx, x / 8 = 0 ∧ x % 8 = x := fun x hx => ⟨by omega, by omega⟩
  rw [hsl, Nat.mul_one, Nat.div_eq_of_lt (by omega), Nat.mod_eq_of_lt (by omega : j < 8)]
  constructor
  · rintro ⟨x, y, hx, hlt, hb, hk, hne⟩
    have hy := row_lt hlt
    rw [hsl, Nat.mul_one, (hs x hx).1, Nat.add_zero, Nat.add_zero, u32_of_lt (by omega)] at hb
    rw [(hs x hx).2] at hk
    subst hb hk
    exact ⟨hx, hne⟩
  · rintro ⟨hjx, hne⟩
    refine ⟨j, i, hjx, place_lt hjx hi, ?_, (hs j hjx).2, hne⟩
    rw [hsl, Nat.mul_one, (hs j hjx).1, u32_of_lt (by omega)]

/-- The bits are those of the samples, black zero. -/
def BlackKept (img : TiffSource) : Prop :=
  ∀ i < img.ny, ∀ j < img.nc * img.nx,
    Marked img (img.nx * img.ny) (i * img.sll + j / 8) (j % 8) ↔ img.pixels.get (i * (img.nc * img.nx) + j) ≠ 0

theorem zero_of_blackKept (hny : img.ny < 2 ^ 32) (hnc : 1 < img.nc) (hl : img.nc * img.nx ≤ 8)
    (h : BlackKept img) (hp : p < img.nx * img.ny * img.nc) (hf : img.nx ≤ p) : img.pixels.get p = 0 := by
  induction p using Nat.strong_induction_on with
  | _ p ih =>
    obtain ⟨hi, hj, hpl⟩ := sample_place hp
    set i := p / (img.nc * img.nx)
    set j := p % (img.nc * img.nx)
    by_contra hne
    have hk := h i hi j hj
    rw [marked_of_many hny hnc hl hi hj, hpl] at hk
    obtain ⟨hjx, hs⟩ := hk.2 hne
    -- the sample is read from an earlier one, which is zero
    have hr : 0 < i := Nat.pos_of_ne_zero fun hz => by
      rw [hz, Nat.zero_mul, Nat.zero_add] at hpl
      omega
    have ht : i * (2 * img.nx) ≤ i * (img.nc * img.nx) := Nat.mul_le_mul_left _ (Nat.mul_le_mul_right _ hnc)
    have ho : 1 * img.nx ≤ i * img.nx := Nat.mul_le_mul_right _ hr
    have hd : i * (2 * img.nx) = i * img.nx + i * img.nx := by ring
    have he : i * img.nx + j < p := by omega
    exact hs (ih _ he (he.trans hp) (by omega))

theorem blackKept_iff_of_many (hny : img.ny < 2 ^ 32) (hnc : 1 < img.nc) (hl : img.nc * img.nx ≤ 8) :
    BlackKept img ↔ ∀ p < img.nx * img.ny * img.nc, img.nx ≤ p → img.pixels.get p = 0 := by
  constructor
  · intro h p hp hf
    exact zero_of_blackKept hny hnc hl h hp hf
  · intro h i hi j hj
    rw [marked_of_many hny hnc hl hi hj]
    have hs := sample_lt hi hj
    rcases Nat.eq_zero_or_pos i with rfl | hr
    · rw [Nat.zero_mul, Nat.zero_mul, Nat.zero_add, and_iff_right_iff_imp]
      intro hne
      by_contra hf
      exact hne (h j (by simpa using hs) (not_lt.1 hf))
    · have ho : 1 * img.nx ≤ i * img.nx := Nat.mul_le_mul_right _ hr
      have hm : i * img.nx ≤ i * (img.nc * img.nx) :=
        Nat.mul_le_mul_left _ (Nat.le_mul_of_pos_left _ img.nc_pos)
      refine iff_of_false ?_ fun hne => hne (h _ hs (by omega))
      rintro ⟨-, hne⟩
      exact hne (h _ (by omega) (by omega))

theorem blackKept_iff_of_one (hnx : img.nx < 2 ^ 32) (hnc : img.nc = 1) :
    BlackKept img ↔ ∀ p < img.nx * img.ny * img.nc,
      2 ^ 32 ≤ p / img.nx * ((img.nx + 7) / 8) + p % img.nx / 8 → img.pixels.get p = 0 := by
  simp only [BlackKept, hnc, Nat.one_mul, Nat.mul_one]
  constructor
  · intro h p hp hw
    obtain ⟨hx, hy, hpl⟩ := pixel_of_place hp
    have hk := h (p / img.nx) hy (p % img.nx) hx
    rw [hpl] at hk
    by_contra hne
    obtain ⟨x, y, -, -, hb, -⟩ := hk.2 hne
    have hlt : u32 (y * img.sll + x / 8) < 2 ^ 32 := Nat.mod_lt _ (by norm_num)
    rw [sll_eq hnx] at hb hlt
    omega
  · intro h i hi j hj
    refine marked_of_one hnx (fun x hx y hy hw => h _ (place_lt hx hy) ?_) hi hj
    obtain ⟨hd, hm⟩ := (eq_iff_div_mod hx).1 (rfl : y * img.nx + x = _)
    rwa [hd, hm, ← sll_eq hnx]

theorem blackKept_iff (hc : Counted img) (hft : 0 < img.ny → Fitting img) :
    BlackKept img ↔ ∀ p < img.nx * img.ny * img.nc,
      (1 < img.nc ∧ img.nx ≤ p) ∨ 2 ^ 32 ≤ p / img.nx * ((img.nx + 7) / 8) + p % img.nx / 8 →
        img.pixels.get p = 0 := by
  rcases Nat.eq_zero_or_pos img.ny with hz | hps
  · simp [BlackKept, hz]
  have hnx := hc.nx_lt hps
  rcases Nat.lt_or_ge 1 img.nc with hm | ho
  · rw [blackKept_iff_of_many hc.ny_lt hm (le_eight_of_room (hft hps).room hm)]
    refine forall₂_congr fun p hp => imp_congr_left ⟨fun hf => .inl ⟨hm, hf⟩, ?_⟩
    rintro (⟨-, hf⟩ | hw)
    · exact hf
    · by_contra hf
      rw [Nat.div_eq_of_lt (not_le.1 hf), Nat.mod_eq_of_lt (not_le.1 hf)] at hw
      omega
  · rw [blackKept_iff_of_one hnx (Nat.le_antisymm ho img.nc_pos)]
    refine forall₂_congr fun p hp => imp_congr_left ⟨.inr, ?_⟩
    rintro (⟨hm, -⟩ | hw)
    · omega
    · exact hw

theorem readBack_iff (hp : img.photo = .minIsWhite ∨ img.photo = .minIsBlack)
    (hbf : Packed img (img.nx * img.ny) buf) (b : ℕ) (hk : k < 8) (v : img.width.Sample) :
    ((if HasBit (buf.get b) k then (blackWhite (0, 0) img.photo).2 else (blackWhite (0, 0) img.photo).1) =
        if v = 0 then 0 else 255) ↔
      (img.photo = .minIsBlack → (Marked img (img.nx * img.ny) b k ↔ v ≠ 0)) ∧
        (img.photo = .minIsWhite → v = 0) := by
  rcases hp with hw | hb
  · rw [hbf.white hw, if_pos (hasBit_ff k hk), hw]
    by_cases hv : v = 0 <;> simp [blackWhite, hv]
  · rw [← hbf.black hb b k hk, hb]
    by_cases hv : v = 0 <;> by_cases hbt : HasBit (buf.get b) k <;> simp [blackWhite, hv, hbt]

theorem rows_iff (hph : img.photo = .minIsWhite ∨ img.photo = .minIsBlack) (hc : Counted img)
    (hf : 0 < img.ny → Fitting img) (hbf : Packed img (img.nx * img.ny) buf) :
    (∀ i < img.ny, ∃ line, unpackRow img buf i = .ok line ∧ ∀ j < img.nc * img.nx, line.get j =
        if img.pixels.get (i * (img.nc * img.nx) + j) = 0 then 0 else 255) ↔
      (img.photo = .minIsBlack → BlackKept img) ∧
        (img.photo = .minIsWhite → ∀ p < img.nx * img.ny * img.nc, img.pixels.get p = 0) := by
  have hbc := fun b j => readBack_iff hph hbf b (Nat.mod_lt j (by decide : 8 > 0))
  constructor
  · intro hr
    have hs : ∀ i < img.ny, ∀ j < img.nc * img.nx,
        (img.photo = .minIsBlack → (Marked img (img.nx * img.ny) (i * img.sll + j / 8) (j % 8) ↔
          img.pixels.get (i * (img.nc * img.nx) + j) ≠ 0)) ∧
        (img.photo = .minIsWhite → img.pixels.get (i * (img.nc * img.nx) + j) = 0) := by
      intro i hi j hj
      have hps : 0 < img.ny := by omega
      obtain ⟨line, hl, hv⟩ := hr i hi
      obtain ⟨line', hl', hv'⟩ := unpackRow_ends (hc.nx_lt hps) (hf hps) hbf.size hi
      cases hl.symm.trans hl'
      exact (hbc _ j _).1 ((hv' j hj).symm.trans (hv j hj))
    refine ⟨fun hb i hi j hj => (hs i hi j hj).1 hb, fun hw p hp => ?_⟩
    obtain ⟨hi, hj, hpl⟩ := sample_place hp
    have hz := (hs _ hi _ hj).2 hw
    rwa [hpl] at hz
  · rintro ⟨hb, hw⟩ i hi
    have hps : 0 < img.ny := by omega
    obtain ⟨line, hl, hv⟩ := unpackRow_ends (hc.nx_lt hps) (hf hps) hbf.size hi
    refine ⟨line, hl, fun j hj => ?_⟩
    rw [hv j hj, hbc]
    exact ⟨fun h => hb h i hi j hj, fun h => hw h _ (sample_lt hi hj)⟩

theorem scanned_of_not (hp : p < img.nx * img.ny * img.nc) (h : ¬ (1 < img.nc ∧ img.nx ≤ p)) :
    p < img.nx * img.ny := by
  rcases Nat.lt_or_ge 1 img.nc with hm | ho
  · have hps : 0 < img.ny := Nat.pos_of_ne_zero fun hz => by simp [hz] at hp
    have := Nat.le_mul_of_pos_right img.nx hps
    omega
  · rwa [Nat.le_antisymm ho img.nc_pos, Nat.mul_one] at hp

/-- **When a bilevel image comes back**: exactly if its samples have eight bits, its sides fit the counters, a row
of all channels fits into a packed row of one, and nothing is left out that is not zero. -/
theorem bilevel_round_trip_iff (img : TiffSource) :
    (img.its1Bit = true → ComesBack img) ↔ (img.its1Bit = true → Suits img) := by
  refine forall_congr' fun h1 => ?_
  obtain ⟨hph, hs⟩ := img.its1Bit_iff.1 h1
  constructor
  · rintro ⟨-, buf, hok, hr⟩
    have hby := byte_of_ok hok
    have hc := counted_of_ok hok
    have hbf := (packed_ends hc h1 hby).of_ok hok
    have hf : 0 < img.ny → Fitting img := by
      intro hps
      obtain ⟨line, hl, -⟩ := hr (img.ny - 1) (by omega)
      exact fitting_of_ok (hc.nx_lt hps) hbf.size hps hl
    obtain ⟨hb, hw⟩ := (rows_iff hph hc hf hbf).1 hr
    exact ⟨hby, hc, hf, fun h => (blackKept_iff hc hf).1 (hb h), hw⟩
  · intro h
    obtain ⟨buf, hok, hbf⟩ := (packed_ends h.counted h1 h.byte).exists_ok
    refine ⟨fun p hp => ?_, buf, hok, (rows_iff hph h.counted h.fitting hbf).2
      ⟨fun hb => (blackKept_iff h.counted h.fitting).2 (h.black hb), h.white⟩⟩
    rcases hph with hw | hb
    · exact .inl (h.white hw p hp)
    · by_cases ho : 1 < img.nc ∧ img.nx ≤ p
      · exact .inl (h.black hb p hp (.inl ho))
      · exact hs p (scanned_of_not hp ho)

end

/-- 3 × 2 pixels with one column of full scale. -/
def stripe : TiffSource where
  nx := 3
  ny := 2
  nc := 1
  nc_pos := Nat.one_pos
  photo := .minIsBlack
  width := .byte
  pixels := ⟨6, fun p => if p % 3 = 1 then 255 else 0⟩

theorem stripe_comes_back : stripe.its1Bit = true ∧ ComesBack stripe := by
  have h1 : stripe.its1Bit = true := by decide
  refine ⟨h1, (bilevel_round_trip_iff stripe).2 (fun _ => ?_) h1⟩
  have hs : Counted stripe := ⟨by decide, fun _ => by decide⟩
  refine ⟨rfl, hs, fun _ => ⟨by decide, by decide⟩, fun _ p hp hc => ?_, fun hw => by cases hw⟩
  have hlt : p < 6 := hp
  rcases hc with ⟨hm, -⟩ | hwr
  · exact absurd hm (by decide)
  · have hb : p / 3 * ((3 + 7) / 8) + p % 3 / 8 < 2 ^ 32 := by omega
    exact absurd hwr (not_le.2 hb)

/-- One white-is-zero pixel of full scale. -/
def blackDot : TiffSource where
  nx := 1
  ny := 1
  nc := 1
  nc_pos := Nat.one_pos
  photo := .minIsWhite
  width := .byte
  pixels := .const 1 255

/-- One pixel of sixteen bits. -/
def deepDot : TiffSource where
  nx := 1
  ny := 1
  nc := 1
  nc_pos := Nat.one_pos
  photo := .minIsBlack
  width := .word
  pixels := .const 1 0

def twoChannels : TiffSource where
  nx := 1
  ny := 1
  nc := 2
  nc_pos := Nat.two_pos
  photo := .minIsBlack
  width := .byte
  pixels := ⟨2, fun p => if p = 0 then 255 else 7⟩

theorem bilevel_is_lost :
    (blackDot.its1Bit = true ∧ ¬ ComesBack blackDot) ∧
    (deepDot.its1Bit = true ∧ deepDot.cvrt8BitTo1bit = .error (.bits 16)) ∧
    (twoChannels.its1Bit = true ∧ ¬ twoChannels.Extreme 1) := by
  refine ⟨⟨by decide, ?_⟩, ⟨by decide, rfl⟩, ⟨by decide, by decide⟩⟩
  rintro ⟨-, buf, hok, hr⟩
  have hc : Counted blackDot := counted_of_ok hok
  have hb := (packed_ends hc (by decide) rfl).of_ok hok
  have hw := ((rows_iff (.inl rfl) hc (fun _ => ⟨by decide, by decide⟩) hb).1 hr).2 rfl 0 (by decide)
  exact absurd hw (by decide)

end Sipi.Formats
