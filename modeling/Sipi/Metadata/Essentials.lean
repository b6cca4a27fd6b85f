import Mathlib.Data.List.Basic

/-!
# The Essentials packet

A service file carries where it came from: the name and the type of the original, a checksum of the pixels, an ICC
profile and the shape of the image.

## Honest scope

The number of bytes that are read is an `int`.
-/

namespace Sipi.Metadata

/-- `shttps::HashType`, by its number. -/
structure HashType where
  code : UInt32
  deriving DecidableEq

namespace HashType

/-- `none`. -/
def none : HashType := ⟨0⟩

/-- `md5`. -/
def md5 : HashType := ⟨1⟩

/-- `sha256`. -/
def sha256 : HashType := ⟨3⟩

end HashType

/-- `EssentialsFields`, with its defaults. -/
structure EssentialsFields where
  origname : List UInt8 := []
  mimetype : List UInt8 := []
  hashType : HashType := .none
  dataChksum : List UInt8 := []
  useIcc : Bool := false
  iccProfile : List UInt8 := []
  imgW : UInt32 := 0
  imgH : UInt32 := 0
  tileW : UInt32 := 0
  tileH : UInt32 := 0
  clevels : UInt32 := 0
  numpages : UInt32 := 0
  nc : UInt32 := 0
  bps : UInt32 := 0
  deriving DecidableEq

/-- The same fields, and the version. -/
structure EssentialsCodecFields extends EssentialsFields where
  formatVersion : UInt32 := 1
  deriving DecidableEq

/-- `ParseError`. -/
inductive ParseError where
  | empty
  | malformed
  | missingVersion
  | unknownVersion
  | missingCore
  deriving DecidableEq

/-- `Essentials`, empty if it is not set. -/
structure Essentials where
  isSet : Bool
  fields : EssentialsFields
  fields_of_unset : isSet = false → fields = {}

/-- The constructor from fields. -/
def Essentials.ofFields (fields : EssentialsFields) : Essentials := ⟨true, fields, nofun⟩

/-- The bytes are text. -/
def IsUtf8 (b : List UInt8) : Prop := (ByteArray.mk b.toArray).IsValidUTF8

instance (b : List UInt8) : Decidable (IsUtf8 b) := inferInstanceAs (Decidable (ByteArray.IsValidUTF8 _))

/-- `origname` and `mimetype` hold text. -/
def EssentialsFields.Textual (f : EssentialsFields) : Prop := IsUtf8 f.origname ∧ IsUtf8 f.mimetype

instance (f : EssentialsFields) : Decidable f.Textual := inferInstanceAs (Decidable (_ ∧ _))

/-- The class that `protoc` generates for the message of `essentials.proto`. -/
structure Generated where
  serializeToString : EssentialsCodecFields → List UInt8
  parseFromArray : List UInt8 → Option EssentialsCodecFields
  Fits : EssentialsCodecFields → Prop

/-- What Protocol Buffers promise of it. -/
structure Generated.Lawful (g : Generated) : Prop where
  /-- A field that is not zero is written. -/
  version_written : ∀ f, g.Fits f → f.formatVersion ≠ 0 → g.serializeToString f ≠ []
  /-- A message that was written is read back if its strings are text, and refused if not. -/
  read_back : ∀ f, g.Fits f → g.parseFromArray (g.serializeToString f) = if f.Textual then some f else none
  /-- No other message is read either. -/
  textual : ∀ bytes f, g.parseFromArray bytes = some f → f.Textual

/-- Identity and checksum are there. -/
def EssentialsFields.Core (f : EssentialsFields) : Prop :=
  f.origname ≠ [] ∧ f.mimetype ≠ [] ∧ f.hashType ≠ .none ∧ f.dataChksum ≠ []

instance (f : EssentialsFields) : Decidable f.Core := inferInstanceAs (Decidable (_ ∧ _))

variable (g : Generated)

/-- `decode_essentials`. -/
def decodeEssentials (bytes : List UInt8) : Except ParseError EssentialsCodecFields :=
  if bytes = [] then .error .empty
  else
    match g.parseFromArray bytes with
    | none => .error .malformed
    | some out =>
      if out.formatVersion = 0 then .error .missingVersion
      else if 1 < out.formatVersion then .error .unknownVersion
      else if out.Core then .ok out
      else .error .missingCore

/-- `encode_essentials`. -/
def encodeEssentials (f : EssentialsCodecFields) : List UInt8 := g.serializeToString f

namespace Essentials

/-- `Essentials::parse`. -/
def parse (bytes : List UInt8) : Except ParseError Essentials :=
  (decodeEssentials g bytes).map fun codec => ofFields codec.toEssentialsFields

/-- What `serialize` hands to the codec. -/
def codecFields (e : Essentials) : EssentialsCodecFields := { e.fields with formatVersion := 1 }

/-- `Essentials::serialize`. -/
def serialize (e : Essentials) : List UInt8 := encodeEssentials g e.codecFields

end Essentials

variable {g} (hg : g.Lawful)

include hg in
theorem decode_encode {f : EssentialsCodecFields} (hv : f.formatVersion = 1) (hfits : g.Fits f) :
    decodeEssentials g (encodeEssentials g f) =
      if f.Textual then if f.Core then .ok f else .error .missingCore else .error .malformed := by
  have hne : g.serializeToString f ≠ [] := hg.version_written f hfits (by rw [hv]; decide)
  rw [decodeEssentials, encodeEssentials, if_neg hne, hg.read_back f hfits]
  by_cases hu : f.Textual
  · rw [if_pos hu, if_pos hu]
    dsimp only
    rw [hv, if_neg (by decide), if_neg (by decide)]
  · rw [if_neg hu, if_neg hu]

theorem decode_ok {bytes : List UInt8} {f : EssentialsCodecFields} (h : decodeEssentials g bytes = .ok f) :
    g.parseFromArray bytes = some f ∧ f.formatVersion = 1 ∧ f.Core := by
  unfold decodeEssentials at h
  split_ifs at h
  cases hp : g.parseFromArray bytes with
  | none =>
    rw [hp] at h
    cases h
  | some out =>
    rw [hp] at h
    dsimp only at h
    split_ifs at h with h0 h1 hc
    obtain rfl := Except.ok.inj h
    refine ⟨rfl, UInt32.toNat.inj ?_, hc⟩
    have hn : out.formatVersion.toNat ≠ 0 := fun hz => h0 (UInt32.toNat.inj hz)
    have hl : ¬ 1 < out.formatVersion.toNat := h1
    exact Nat.le_antisymm (Nat.not_lt.mp hl) (Nat.pos_of_ne_zero hn)

namespace Essentials

theorem ofFields_fields {e : Essentials} (h : e.fields.Core) : ofFields e.fields = e := by
  obtain ⟨isSet, fields, hunset⟩ := e
  cases isSet with
  | false =>
    obtain rfl := hunset rfl
    exact absurd rfl h.1
  | true => rfl

include hg

omit hg

end Essentials

/-! ### A codec -/

/-- Strings in unary, one after the other. -/
def pack (strings : List (List UInt8)) : List UInt8 := strings.flatMap fun s => (s.flatMap fun b => [1, b]) ++ [0]

/-- The strings that were packed. -/
def unpack : List UInt8 → Option (List (List UInt8))
  | [] => some []
  | 0 :: rest => (unpack rest).map ([] :: ·)
  | 1 :: b :: rest =>
    match unpack rest with
    | some (s :: strings) => some ((b :: s) :: strings)
    | _ => none
  | _ => none

theorem unpack_pack (strings : List (List UInt8)) : unpack (pack strings) = some strings := by
  induction strings with
  | nil => rfl
  | cons s strings ih =>
    induction s with
    | nil => simpa [pack, unpack] using ih
    | cons b s ihs =>
      have hs : pack ((b :: s) :: strings) = 1 :: b :: pack (s :: strings) := by simp [pack]
      rw [hs, unpack, ihs]

/-- A number as a string of so many zeros. -/
def unary (n : UInt32) : List UInt8 := List.replicate n.toNat 0

theorem ofNat_length_unary (n : UInt32) : UInt32.ofNat (unary n).length = n := by
  rw [unary, List.length_replicate, UInt32.ofNat_toNat]

/-- A codec in unary that keeps the promises. -/
def unaryCodec : Generated where
  serializeToString f := pack [unary f.formatVersion, f.origname, f.mimetype, unary f.hashType.code, f.dataChksum,
    if f.useIcc then [0] else [], f.iccProfile, unary f.imgW, unary f.imgH, unary f.tileW, unary f.tileH,
    unary f.clevels, unary f.numpages, unary f.nc, unary f.bps]
  parseFromArray bytes :=
    match unpack bytes with
    | some [version, origname, mimetype, hash, dataChksum, useIcc, iccProfile, w, h, tw, th, cl, np, nc, bps] =>
      let f : EssentialsCodecFields :=
        ⟨⟨origname, mimetype, ⟨.ofNat hash.length⟩, dataChksum, useIcc != [], iccProfile, .ofNat w.length,
          .ofNat h.length, .ofNat tw.length, .ofNat th.length, .ofNat cl.length, .ofNat np.length, .ofNat nc.length,
          .ofNat bps.length⟩, .ofNat version.length⟩
      if f.Textual then some f else none
    | _ => none
  Fits _ := True

theorem unaryCodec_lawful : unaryCodec.Lawful where
  version_written f _ _ := by simp [unaryCodec, pack]
  read_back f _ := by
    have hb : ((if f.useIcc then [0] else ([] : List UInt8)) != []) = f.useIcc := by cases f.useIcc <;> rfl
    simp only [unaryCodec, unpack_pack, ofNat_length_unary, hb]
  textual bytes f h := by
    simp only [unaryCodec] at h
    split at h
    · split_ifs at h with ht
      cases h
      exact ht
    · cases h

/-- A scan, by its name. -/
def scan (origname : List UInt8) : Essentials :=
  .ofFields { origname := origname, mimetype := [0x69], hashType := .sha256, dataChksum := [0xab], imgW := 3 }

end Sipi.Metadata
