import Mathlib.Tactic.Ring
import Sipi.Metadata.Essentials

/-!
# Service files from conversion to verification

`sipi convert service-file` stamps a packet on an image and writes it, `SipiImage::readSource` reads both and
compares the checksum, and `sipi verify service-file` decides whether the file is sound.

## Honest scope

The image has been turned upright when the packet is built. The digests of OpenSSL do not fail.
-/

namespace Sipi.Metadata

/-! ### Checksums -/

/-- A digit of `kHex`. -/
def hexDigit (n : ℕ) : UInt8 := if n < 10 then UInt8.ofNat (0x30 + n) else UInt8.ofNat (0x61 + (n - 10))

/-- The lambda `nibble`. -/
def nibble (c : UInt8) : Option ℕ :=
  if 0x30 ≤ c ∧ c ≤ 0x39 then some (c.toNat - 0x30)
  else if 0x61 ≤ c ∧ c ≤ 0x66 then some (10 + (c.toNat - 0x61))
  else if 0x41 ≤ c ∧ c ≤ 0x46 then some (10 + (c.toNat - 0x41))
  else none

/-- `to_hex`. -/
def toHex (bytes : List UInt8) : List UInt8 :=
  bytes.flatMap fun b => [hexDigit (b.toNat / 16), hexDigit (b.toNat % 16)]

/-- The loop of `from_hex`, by two digits. -/
def fromHexLoop : List UInt8 → Option (List UInt8)
  | hi :: lo :: rest => do
    let h ← nibble hi
    let l ← nibble lo
    (UInt8.ofNat (16 * h + l) :: ·) <$> fromHexLoop rest
  | _ => some []

/-- `from_hex`: empty for what is not hexadecimal. -/
def fromHex (hex : List UInt8) : List UInt8 := if hex.length % 2 ≠ 0 then [] else (fromHexLoop hex).getD []

theorem nibble_hexDigit : ∀ n < 16, nibble (hexDigit n) = some n := by decide

theorem fromHexLoop_toHex (bytes : List UInt8) : fromHexLoop (toHex bytes) = some bytes := by
  induction bytes with
  | nil => rfl
  | cons b bytes ih =>
    have hhi : b.toNat / 16 < 16 := Nat.div_lt_of_lt_mul b.toNat_lt
    have hlo : b.toNat % 16 < 16 := Nat.mod_lt _ (by decide)
    rw [toHex, List.flatMap_cons, ← toHex]
    simp only [List.cons_append, List.nil_append, fromHexLoop, nibble_hexDigit _ hhi, nibble_hexDigit _ hlo, ih,
      Option.bind_eq_bind, Option.bind_some, Option.map_eq_map, Option.map_some, Nat.div_add_mod, UInt8.ofNat_toNat]

theorem fromHex_toHex (bytes : List UInt8) : fromHex (toHex bytes) = bytes := by
  have hlen : (toHex bytes).length % 2 = 0 := by simp [toHex]
  rw [fromHex, if_neg (by simp [hlen]), fromHexLoop_toHex]
  rfl

/-- The digests of OpenSSL, each of some bytes. -/
structure Digests where
  digest : HashType → List UInt8 → List UInt8
  digest_ne : ∀ t data, digest t data ≠ []

/-- What a decoder delivers. -/
structure Decoded where
  nx : ℕ
  ny : ℕ
  nc : ℕ
  bps : ℕ
  data : List UInt8
  icc : Option (List UInt8)
  packet : Essentials

variable (d : Digests)

/-- `shttps::Hash`, which throws for no name. -/
def hash (t : HashType) (data : List UInt8) : Option (List UInt8) :=
  if t.code ≤ 5 then some (toHex (d.digest (if t = .none then .md5 else t) data)) else none

/-- `readSource`: whether the checksum is another. -/
def readSource (img : Decoded) : Option Bool :=
  if img.packet.isSet then
    (hash d img.packet.fields.hashType img.data).map fun checksum => checksum != toHex img.packet.fields.dataChksum
  else some false

/-- `compute_pixel_hash`. -/
def computePixelHash (t : HashType) (img : Decoded) : Option (List UInt8) := (hash d t img.data).map fromHex

/-- What stands after the last of these bytes. -/
def afterLast (c : UInt8) (path : List UInt8) : Option (List UInt8) :=
  if c ∈ path then some (path.reverse.takeWhile (· != c)).reverse else none

/-- `basename`: what stands after the last slash. -/
def basename (path : List UInt8) : List UInt8 := (afterLast 0x2f path).getD path

/-- `lower_extension`. -/
def lowerExtension (path : List UInt8) : List UInt8 :=
  ((afterLast 0x2e path).getD []).map fun c => if 0x41 ≤ c ∧ c ≤ 0x5a then c + 0x20 else c

/-- The bytes of a text in ASCII. -/
def literal (w : String) : List UInt8 := w.toList.map fun c => UInt8.ofNat c.toNat

/-- `is_service_file_extension`. -/
def isServiceFileExtension (path : List UInt8) : Bool :=
  lowerExtension path ∈ ["jp2", "jpx", "tif", "tiff"].map literal

/-- The packet stamped on a service file. -/
def serviceFields (inputPath mimetype : List UInt8) (img : Decoded) : EssentialsFields where
  origname := basename inputPath
  mimetype := mimetype
  hashType := .sha256
  dataChksum := (computePixelHash d .sha256 img).getD []
  useIcc := img.icc.isSome
  iccProfile := img.icc.getD []
  imgW := .ofNat img.nx
  imgH := .ofNat img.ny
  nc := .ofNat img.nc
  bps := .ofNat img.bps

/-- `cmd_verify` for a service file. -/
def verifyServiceFile (path : List UInt8) (decoded : Option Decoded) : Bool :=
  isServiceFileExtension path &&
    match decoded with
    | none => false
    | some img =>
      let f := img.packet.fields
      (readSource d img).isSome && img.packet.isSet && f.imgW == .ofNat img.nx && f.imgH == .ofNat img.ny &&
        (f.nc == 0 || f.nc == .ofNat img.nc) && (f.bps == 0 || f.bps == .ofNat img.bps) &&
        computePixelHash d f.hashType img == some f.dataChksum

/-- A packet that is not set. -/
def Essentials.unset : Essentials := ⟨false, {}, fun _ => rfl⟩

variable (g : Generated) (parseLegacy : List UInt8 → Essentials)

/-- The packet in the tags of a TIFF. -/
def tiffPacket (pb legacy : List UInt8) : Essentials :=
  match if pb = [] then none else (Essentials.parse g pb).toOption with
  | some e => e
  | none => if legacy = [] then .unset else parseLegacy legacy

/-- `sipi_essentials_uuid`. -/
def sipiEssentialsUuid : List UInt8 :=
  [0x7B, 0x28, 0xA6, 0x46, 0xB9, 0xC3, 0x4F, 0xB2, 0x90, 0x0B, 0xB6, 0x85, 0x5D, 0xF2, 0x38, 0x82]

/-- The packet in the boxes of a JPEG 2000. -/
def j2kPacket (boxes : List (List UInt8 × List UInt8)) (comments : List (List UInt8)) : Essentials :=
  let packets := boxes.filterMap fun box =>
    if box.1 = sipiEssentialsUuid then (Essentials.parse g box.2).toOption else none
  match packets.getLast? with
  | some e => e
  | none =>
    match comments.find? fun c => c.take 5 = literal "SIPI:" with
    | some c => parseLegacy (c.drop 5)
    | none => .unset

/-- What is read of a packet that was written. -/
inductive Carried (e : Essentials) : Essentials → Prop where
  | tiff : Carried e (tiffPacket g parseLegacy (e.serialize g) [])
  | j2k {others : List (List UInt8 × List UInt8)} {comments : List (List UInt8)}
      (hothers : ∀ box ∈ others, box.1 ≠ sipiEssentialsUuid)
      (hcomments : ∀ c ∈ comments, c.take 5 ≠ literal "SIPI:") :
      Carried e (j2kPacket g parseLegacy ((sipiEssentialsUuid, e.serialize g) :: others) comments)

variable {d g parseLegacy}

theorem Carried.eq {e e' : Essentials} (h : Carried g parseLegacy e e') :
    e' = ((Essentials.parse g (e.serialize g)).toOption).getD .unset := by
  cases h with
  | tiff =>
    rw [tiffPacket]
    by_cases h0 : e.serialize g = []
    · rw [if_pos h0, h0]
      rfl
    · rw [if_neg h0]
      cases (Essentials.parse g (e.serialize g)).toOption <;> rfl
  | @j2k others comments hothers hcomments =>
    have hnone : others.filterMap (fun box => if box.1 = sipiEssentialsUuid then (Essentials.parse g box.2).toOption
        else none) = [] := List.filterMap_eq_nil_iff.mpr fun box hbox => if_neg (hothers box hbox)
    have hfind : comments.find? (fun c => c.take 5 = literal "SIPI:") = none :=
      List.find?_eq_none.mpr fun c hc => by simpa using hcomments c hc
    simp only [j2kPacket, List.filterMap_cons, hnone, hfind, if_true]
    cases (Essentials.parse g (e.serialize g)).toOption <;> rfl

/-! ### Converted files -/

theorem hash_sha256 (data : List UInt8) : hash d .sha256 data = some (toHex (d.digest .sha256 data)) := rfl

theorem computePixelHash_sha256 (img : Decoded) :
    computePixelHash d .sha256 img = some (d.digest .sha256 img.data) := by
  rw [computePixelHash, hash_sha256, Option.map_some, fromHex_toHex]

/-- The names that a packet can carry. -/
def Readable (inputPath mimetype : List UInt8) : Prop :=
  (IsUtf8 (basename inputPath) ∧ IsUtf8 mimetype) ∧ basename inputPath ≠ [] ∧ mimetype ≠ []

instance (inputPath mimetype : List UInt8) : Decidable (Readable inputPath mimetype) :=
  inferInstanceAs (Decidable (_ ∧ _))

/-- The shape as `cmd_verify` compares it. -/
def SameShape (img img' : Decoded) : Prop :=
  UInt32.ofNat img.nx = .ofNat img'.nx ∧ UInt32.ofNat img.ny = .ofNat img'.ny ∧
    (UInt32.ofNat img.nc = 0 ∨ UInt32.ofNat img.nc = .ofNat img'.nc) ∧
    (UInt32.ofNat img.bps = 0 ∨ UInt32.ofNat img.bps = .ofNat img'.bps)

variable (hg : g.Lawful) {inputPath mimetype : List UInt8} {img : Decoded} {e' : Essentials}
  (hfits : g.Fits (Essentials.ofFields (serviceFields d inputPath mimetype img)).codecFields)
  (hcarried : Carried g parseLegacy (.ofFields (serviceFields d inputPath mimetype img)) e')
include hg hfits hcarried

theorem packet_of_converted :
    e' = if Readable inputPath mimetype then .ofFields (serviceFields d inputPath mimetype img) else .unset := by
  have hcore : (serviceFields d inputPath mimetype img).Core ↔ basename inputPath ≠ [] ∧ mimetype ≠ [] := by
    simp only [EssentialsFields.Core, serviceFields, computePixelHash_sha256, Option.getD_some]
    exact ⟨fun h => ⟨h.1, h.2.1⟩, fun h => ⟨h.1, h.2, by decide, d.digest_ne _ _⟩⟩
  rw [hcarried.eq, Essentials.parse, Essentials.serialize, decode_encode hg rfl hfits]
  split_ifs with hu hc hr hr hr
  · rfl
  · exact absurd ⟨hu, hcore.mp hc⟩ hr
  · exact absurd (hcore.mpr hr.2) hc
  · rfl
  · exact absurd hr.1 hu
  · rfl

omit hg hfits hcarried

/-- A digest that hides nothing. -/
def echo : Digests := ⟨fun _ data => 0 :: data, fun _ _ => List.cons_ne_nil _ _⟩

def twoPixels (packet : Essentials) : Decoded := ⟨2, 1, 1, 8, [3, 4], none, packet⟩

def twoPixelsRead : Decoded :=
  twoPixels (tiffPacket unaryCodec (fun _ => .unset)
    ((Essentials.ofFields (serviceFields echo (literal "a") (literal "b") (twoPixels .unset))).serialize unaryCodec) [])

/-- `static_cast<int>` of a `uint32_t`. -/
def castInt (v : UInt32) : ℤ := if v.toNat < 2 ^ 31 then v.toNat else v.toNat - 2 ^ 32

/-- The shape in `SipiImgInfo`. -/
structure Shape where
  width : ℤ
  height : ℤ
  tileWidth : ℤ
  tileHeight : ℤ
  clevels : ℤ
  numpages : ℤ
  nc : ℤ
  bps : ℤ
  deriving DecidableEq

/-- The short cut of `read_shape`. -/
def fastShape (e : Essentials) : Option Shape :=
  let f := e.fields
  if f.imgW ≠ 0 ∧ f.imgH ≠ 0 then
    some ⟨castInt f.imgW, castInt f.imgH, castInt f.tileW, castInt f.tileH, castInt f.clevels, castInt f.numpages,
      castInt f.nc, castInt f.bps⟩
  else none

theorem toNat_ofNat {n : ℕ} (h : n < 2 ^ 31) : (UInt32.ofNat n).toNat = n :=
  UInt32.toNat_ofNat'.trans (Nat.mod_eq_of_lt (by omega))

theorem castInt_ofNat {n : ℕ} (h : n < 2 ^ 31) : castInt (.ofNat n) = n := by
  rw [castInt, toNat_ofNat h, if_pos h]

theorem ofNat_ne_zero {n : ℕ} (h : 0 < n ∧ n < 2 ^ 31) : UInt32.ofNat n ≠ 0 := by
  intro h0
  have h' := congrArg UInt32.toNat h0
  rw [toNat_ofNat h.2] at h'
  exact h.1.ne' h'

end Sipi.Metadata
