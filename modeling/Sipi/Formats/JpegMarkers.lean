import Sipi.Geometry.Region
import Sipi.Theory.Buffers
import Sipi.Theory.Search
import Mathlib.Data.UInt

/-!
# The markers of a JPEG file

`SipiIOJpeg::read` takes the metadata out of the markers that libjpeg has saved: legacy essentials from a comment,
EXIF and XMP from `APP1`, the parts of an ICC profile from `APP2`, Photoshop resources from `APP13` and the
transform from `APP14`.

## Honest scope

An allocation of a size that is not negative succeeds. What the metadata classes parse is left out.
-/

namespace Sipi.Formats

open Sipi.Theory Sipi.Iiif
open Sipi.Geometry (toInt)

/-- A saved marker. -/
structure Marker where
  marker : UInt8
  data : List UInt8
  length_le : data.length ≤ 65533

/-- What the walk must not do. -/
inductive Fault where
  | overrun
  | nameOverrun
  | bufferOverrun
  | negativeSize
  | freed
  | runsOn
  deriving DecidableEq

/-- What a range of bytes is made into. -/
inductive Resource where
  | essentials
  | exif
  | xmp
  | icc
  | iptc
  deriving DecidableEq

/-- What the walk does not decide. -/
structure Outside where
  throws : Resource → List UInt8 → Bool
  freesOnZero : Bool

/-- The metadata, and what the constructors were given. -/
structure Metadata where
  built : Resource → Option (List UInt8)
  calls : List (Resource × List UInt8)
  transform : Option UInt8

/-- A constructor is called, and may throw. -/
def Metadata.construct (env : Outside) (kind : Resource) (bytes : List UInt8) (m : Metadata) : Bool × Metadata :=
  (env.throws kind bytes,
    { m with
      built := if env.throws kind bytes then m.built else Function.update m.built kind (some bytes)
      calls := m.calls ++ [(kind, bytes)] })

/-- The bytes of a text in ASCII. -/
def ascii (w : String) : List UInt8 := (txt w).map fun c => UInt8.ofNat c.toNat

/-- `data[i]`. -/
def byteAt (data : List UInt8) (i : ℕ) : Except Fault UInt8 :=
  match data[i]? with
  | some b => .ok b
  | none => .error .overrun

/-- `n` bytes from `i` on. -/
def slice (data : List UInt8) (i n : ℕ) : Except Fault (List UInt8) :=
  if i + n ≤ data.length then .ok ((data.drop i).take n) else .error .overrun

/-! ### Photoshop resources -/

/-- The number with these digits, highest first. -/
def bigEndian (bytes : List UInt8) : ℕ := bytes.foldl (fun n b => 256 * n + b.toNat) 0

/-- The signature and the tag, and where they end. -/
def tagAt (data : List UInt8) (ptr : ℕ) : Except Fault (Option (ℕ × ℕ)) :=
  if data.length < ptr + 4 then .ok none
  else slice data ptr 4 >>= fun signature =>
    if signature ≠ ascii "8BIM" then .ok none
    else if data.length < ptr + 4 + 2 then .ok none
    else (slice data (ptr + 4) 2).map fun id => some (bigEndian id, ptr + 4 + 2)

/-- `slen`, with its length byte and the padding. -/
def padded (slen : ℕ) : ℕ := if (slen + 1) % 2 = 1 then slen + 1 + 1 else slen + 1

/-- The Pascal string is copied to `name`. -/
def copyName (data : List UInt8) (ptr slen : ℕ) : Except Fault (Buffer UInt8) :=
  let nameLen := if slen < 255 then slen else 255
  forRange (fun i (name : Buffer UInt8) => byteAt data (ptr + i + 1) >>= name.put .nameOverrun i) nameLen 0
    (.const 256 0) >>= fun name => name.put .nameOverrun nameLen 0

/-- The name, and where it ends. -/
def nameAt (data : List UInt8) (ptr : ℕ) : Except Fault (Option ℕ) :=
  if data.length ≤ ptr then .ok none
  else byteAt data ptr >>= fun slen =>
    if data.length < ptr + 1 + slen.toNat then .ok none
    else (copyName data ptr slen.toNat).map fun _ => some (ptr + padded slen.toNat)

/-- The length of the data, and where they begin. -/
def lengthAt (data : List UInt8) (ptr : ℕ) : Except Fault (Option (ℕ × ℕ)) :=
  if data.length < ptr + 4 then .ok none
  else slice data ptr 4 >>= fun bytes =>
    if data.length < ptr + 4 + bigEndian bytes then .ok none else .ok (some (bigEndian bytes, ptr + 4))

/-- What a tag is for. -/
def resourceOf (id : ℕ) : Option Resource :=
  if id = 0x0404 then some .iptc
  else if id = 0x040f then some .icc
  else if id = 0x0422 then some .exif
  else if id = 0x0424 then some .xmp
  else none

/-- The `switch`: what is missing is built. -/
def useResource (env : Outside) (id : ℕ) (data : List UInt8) (ptr datalen : ℕ) (m : Metadata) :
    Except Fault (Bool × Metadata) :=
  match resourceOf id with
  | none => .ok (false, m)
  | some kind =>
    if (m.built kind).isSome then .ok (false, m)
    else (slice data ptr datalen).map fun bytes => m.construct env kind bytes

/-- The next resource; none if the loop ends. -/
def photoshopRound (env : Outside) (data : List UInt8) (ptr : ℕ) (m : Metadata) :
    Except Fault (Option ℕ × Metadata) :=
  tagAt data ptr >>= fun
    | none => .ok (none, m)
    | some (id, ptr) => nameAt data ptr >>= fun
      | none => .ok (none, m)
      | some ptr => lengthAt data ptr >>= fun
        | none => .ok (none, m)
        | some (datalen, ptr) => (useResource env id data ptr datalen m).map fun
          | (true, m) => (none, m)
          | (false, m) => (some (ptr + if datalen % 2 = 1 then (datalen + 1) % 2 ^ 32 else datalen), m)

/-- The loop of `parse_photoshop`, with its rounds. -/
def photoshopLoop (env : Outside) (data : List UInt8) : ℕ → ℕ → Metadata → Except Fault Metadata
  | 0, ptr, m => if ptr < data.length then .error .runsOn else .ok m
  | n + 1, ptr, m =>
    if ptr < data.length then
      photoshopRound env data ptr m >>= fun
        | (none, m) => .ok m
        | (some ptr, m) => photoshopLoop env data n ptr m
    else .ok m

/-- `parse_photoshop`. An exception is caught. -/
def parsePhotoshop (env : Outside) (data : List UInt8) (m : Metadata) : Except Fault Metadata :=
  photoshopLoop env data data.length 0 m

/-! ### The walk -/

/-- The state of the walk. -/
structure WalkState where
  image : Metadata
  iccBuffer : Option (List UInt8)
  iccBufferLen : ℤ

/-- `realloc`. The new bytes are not set. -/
def realloc (env : Outside) (block : Option (List UInt8)) (size : ℤ) : Except Fault (List UInt8) :=
  if size < 0 then .error .negativeSize
  -- the walk breaks off, and goes on with the block that is freed
  else if size = 0 ∧ block.isSome ∧ env.freesOnZero then .error .freed
  else .ok ((block.getD []).take size.toNat ++ List.replicate (size.toNat - (block.getD []).length) 0)

/-- `memcpy(dst + d, src + s, n)`. -/
def memcpy (dst : List UInt8) (d : ℤ) (src : List UInt8) (s : ℕ) (n : ℤ) : Except Fault (List UInt8) :=
  if n < 0 then .error .negativeSize
  else if d < 0 ∨ dst.length < d + n then .error .bufferOverrun
  else (slice src s n.toNat).map fun bytes => dst.take d.toNat ++ bytes ++ dst.drop (d.toNat + n.toNat)

/-- A comment. -/
def visitCom (env : Outside) (data : List UInt8) (m : Metadata) : Bool × Metadata :=
  if data.take 5 = ascii "SIPI:" then m.construct env .essentials data else (false, m)

/-- The header of EXIF data. -/
def exifHeader : List UInt8 := ascii "Exif" ++ [0, 0]

/-- The header of an XMP packet. -/
def xmpHeader : List UInt8 := ascii "http://ns.adobe.com/xap/1.0/" ++ [0]

/-- The header of a part of an ICC profile. -/
def iccHeader : List UInt8 := ascii "ICC_PROFILE" ++ [0]

/-- The header of Photoshop resources. -/
def photoshopHeader : List UInt8 := ascii "Photoshop 3.0" ++ [0]

/-- EXIF data in an `APP1` marker. -/
def visitExif (env : Outside) (data : List UInt8) (m : Metadata) : Except Fault Metadata :=
  match search exifHeader data with
  | none => .ok m
  | some pos => (slice data (pos + 6) (data.length - pos - 6)).map fun bytes => (m.construct env .exif bytes).2

/-- An XMP packet in an `APP1` marker. -/
def visitXmp (env : Outside) (data : List UInt8) (m : Metadata) : Except Fault Metadata :=
  match search xmpHeader data with
  | none => .ok m
  | some pos =>
    if pos + 29 < data.length then
      (slice data (pos + 29) (data.length - (pos + 29))).map fun bytes => (m.construct env .xmp bytes).2
    else .ok m

/-- A part of an ICC profile in an `APP2` marker. -/
def visitIcc (env : Outside) (data : List UInt8) (s : WalkState) : Except Fault WalkState :=
  match search iccHeader data with
  | none => .ok s
  | some pos =>
    let len : ℤ := data.length - pos - 14
    realloc env s.iccBuffer (s.iccBufferLen + len) >>= fun block =>
      (memcpy block s.iccBufferLen data (pos + 14) len).map fun block =>
        { s with iccBuffer := some block, iccBufferLen := toInt (s.iccBufferLen + len) }

/-- `strncmp(text, data, n) == 0`. -/
def strncmp : List UInt8 → List UInt8 → Except Fault Bool
  | [], _ => .ok true
  | _ :: _, [] => .error .overrun
  | c :: text, d :: data => if c ≠ d then .ok false else if c = 0 then .ok true else strncmp text data

/-- Photoshop resources in an `APP13` marker. -/
def visitPhotoshop (env : Outside) (data : List UInt8) (m : Metadata) : Except Fault Metadata :=
  strncmp photoshopHeader data >>= fun equal => if equal then parsePhotoshop env (data.drop 14) m else .ok m

/-- The transform in an `APP14` marker. -/
def visitAdobe (data : List UInt8) (m : Metadata) : Except Fault Metadata :=
  if 12 ≤ data.length ∧ data.take 5 = ascii "Adobe" then
    (byteAt data 11).map fun transform => { m with transform := some transform }
  else .ok m

/-- `JPEG_COM`. -/
def jpegCom : UInt8 := 0xfe

/-- `JPEG_APP0`. -/
def jpegApp0 : UInt8 := 0xe0

/-- The body of the loop, and whether it throws. -/
def visit (env : Outside) (mk : Marker) (s : WalkState) : Except Fault (Bool × WalkState) :=
  if mk.marker = jpegCom then
    .ok ((visitCom env mk.data s.image).1, { s with image := (visitCom env mk.data s.image).2 })
  else if mk.marker = jpegApp0 + 1 then
    visitExif env mk.data s.image >>= fun m => (visitXmp env mk.data m).map fun m => (false, { s with image := m })
  else if mk.marker = jpegApp0 + 2 then (visitIcc env mk.data s).map fun s => (false, s)
  else if mk.marker = jpegApp0 + 13 then
    (visitPhotoshop env mk.data s.image).map fun m => (false, { s with image := m })
  else if mk.marker = jpegApp0 + 14 then (visitAdobe mk.data s.image).map fun m => (false, { s with image := m })
  else .ok (false, s)

/-- The profile, after the loop. -/
def finishIcc (env : Outside) (s : WalkState) : Except Fault Metadata :=
  match s.iccBuffer with
  | none => .ok s.image
  | some block =>
    if s.iccBufferLen < 0 then .error .negativeSize
    else (slice block 0 s.iccBufferLen.toNat).map fun bytes => (s.image.construct env .icc bytes).2

/-- The loop, and what follows it. -/
def walk (env : Outside) : List Marker → WalkState → Except Fault Metadata
  | [], s => finishIcc env s
  | mk :: markers, s =>
    visit env mk s >>= fun
      | (true, s) => .ok s.image
      | (false, s) => walk env markers s

/-- The metadata walk of `SipiIOJpeg::read`. -/
def readMarkers (env : Outside) (markers : List Marker) : Except Fault Metadata :=
  walk env markers ⟨⟨fun _ => none, [], none⟩, none, 0⟩

variable {data : List UInt8} {i : ℕ}

theorem byteAt_of_lt (h : i < data.length) : ∃ b, byteAt data i = .ok b := by
  rw [byteAt, List.getElem?_eq_getElem h]
  exact ⟨_, rfl⟩

variable {n : ℕ}

theorem slice_of_le (h : i + n ≤ data.length) : slice data i n = .ok ((data.drop i).take n) := if_pos h

theorem slice_rest (h : i ≤ data.length) : slice data i (data.length - i) = .ok (data.drop i) := by
  rw [slice_of_le (by omega), List.take_of_length_le (by rw [List.length_drop])]

theorem infix_slice (data : List UInt8) (i n : ℕ) : (data.drop i).take n <:+: data :=
  (List.take_prefix _ _).isInfix.trans (List.drop_suffix _ _).isInfix

/-- What the constructors were given satisfies `P`. -/
def Metadata.Respects (P : Resource × List UInt8 → Prop) (m : Metadata) : Prop := ∀ call ∈ m.calls, P call

variable {P : Resource × List UInt8 → Prop} {m : Metadata}

theorem Metadata.Respects.construct (h : m.Respects P)
    (env : Outside) {kind : Resource} {bytes : List UInt8} (hP : P (kind, bytes)) :
    (m.construct env kind bytes).2.Respects P := by
  intro call hc
  rcases List.mem_append.1 hc with ho | hn
  · exact h call ho
  · rw [List.mem_singleton.1 hn]
    exact hP

section
variable {env : Outside} {data : List UInt8} {P : Resource × List UInt8 → Prop}

theorem tagAt_ends (data : List UInt8) (ptr : ℕ) :
    Ends (tagAt data ptr) (fun r => ∀ id p, r = some (id, p) → p = ptr + 6) fun _ => False := by
  rw [tagAt]
  by_cases hs : data.length < ptr + 4
  · rw [if_pos hs]
    rintro _ _ ⟨⟩
  · rw [if_neg hs, slice_of_le (by omega), ok_bind]
    split_ifs with hsg hid
    · rintro _ _ ⟨⟩
    · rintro _ _ ⟨⟩
    · rw [slice_of_le (by omega)]
      rintro id p h
      cases h
      rfl

theorem copyName_ends {ptr slen : ℕ} (h : ptr + 1 + slen ≤ data.length) :
    Ends (copyName data ptr slen) (fun _ => True) fun _ => False := by
  unfold copyName
  have hl : (if slen < 255 then slen else 255) ≤ slen ∧ (if slen < 255 then slen else 255) < 256 := by
    split_ifs <;> omega
  generalize (if slen < 255 then slen else 255) = nameLen at hl
  refine (forCount_ends (fun _ (name : Buffer UInt8) => name.size = 256) rfl fun i name hi hn => ?_).bind
    fun name hn => Buffer.put_ends (fun _ => trivial) fun hle => by omega
  obtain ⟨b, hb⟩ := byteAt_of_lt (show ptr + i + 1 < data.length by omega)
  rw [hb, ok_bind]
  exact Buffer.put_ends (fun _ => hn) fun hle => by omega

theorem two_le_padded (slen : ℕ) : 2 ≤ padded slen := by
  unfold padded
  split_ifs <;> omega

theorem nameAt_ends (data : List UInt8) (ptr : ℕ) :
    Ends (nameAt data ptr) (fun r => ∀ p, r = some p → ptr + 2 ≤ p) fun _ => False := by
  unfold nameAt
  split_ifs with he
  · rintro _ ⟨⟩
  · obtain ⟨slen, hs⟩ := byteAt_of_lt (not_le.1 he)
    rw [hs, ok_bind]
    split_ifs with hsh
    · rintro _ ⟨⟩
    · refine (copyName_ends (by omega)).map fun _ _ p hp => ?_
      cases hp
      have := two_le_padded slen.toNat
      omega

theorem lengthAt_ends (data : List UInt8) (ptr : ℕ) :
    Ends (lengthAt data ptr) (fun r => ∀ n p, r = some (n, p) → p = ptr + 4 ∧ p + n ≤ data.length)
      fun _ => False := by
  unfold lengthAt
  split_ifs with hs
  · rintro _ _ ⟨⟩
  · rw [slice_of_le (by omega), ok_bind]
    split_ifs with hl
    · rintro _ _ ⟨⟩
    · rintro n p h
      cases h
      exact ⟨rfl, by omega⟩

section
variable (hP : ∀ kind bytes, bytes <:+: data → P (kind, bytes))
include hP

theorem useResource_ends {id ptr : ℕ} (h : ptr + n ≤ data.length) (hm : m.Respects P) :
    Ends (useResource env id data ptr n m) (fun r => r.2.Respects P) fun _ => False := by
  unfold useResource
  cases resourceOf id with
  | none => exact hm
  | some kind =>
    dsimp only
    split_ifs
    · exact hm
    · rw [slice_of_le h]
      exact hm.construct env (hP _ _ (infix_slice data ptr n))

theorem photoshopRound_ends (ptr : ℕ) (hm : m.Respects P) :
    Ends (photoshopRound env data ptr m) (fun r => (∀ p, r.1 = some p → ptr + 12 ≤ p) ∧ r.2.Respects P)
      fun _ => False := by
  refine (tagAt_ends data ptr).bind fun tag htg => ?_
  cases tag with
  | none => exact ⟨by simp, hm⟩
  | some tag =>
    refine (nameAt_ends data tag.2).bind fun name hn => ?_
    cases name with
    | none => exact ⟨by simp, hm⟩
    | some name =>
      refine (lengthAt_ends data name).bind fun length hl => ?_
      cases length with
      | none => exact ⟨by simp, hm⟩
      | some length =>
        obtain ⟨hb, he⟩ := hl length.1 length.2 rfl
        have ha := hn name rfl
        have ht := htg tag.1 tag.2 rfl
        refine (useResource_ends hP he hm).map fun r hr => ?_
        rcases r with ⟨_ | _, m⟩
        · refine ⟨fun p hp => ?_, hr⟩
          cases hp
          omega
        · exact ⟨by simp, hr⟩

theorem photoshopLoop_ends (n ptr : ℕ) (hn : data.length ≤ ptr + n) (hm : m.Respects P) :
    Ends (photoshopLoop env data n ptr m) (Metadata.Respects P) fun _ => False := by
  induction n generalizing ptr m with
  | zero =>
    rw [photoshopLoop, if_neg (by omega)]
    exact hm
  | succ n ih =>
    rw [photoshopLoop]
    split_ifs with hmr
    · refine (photoshopRound_ends hP ptr hm).bind fun r hr => ?_
      rcases r with ⟨_ | p, m⟩
      · exact hr.2
      · have := hr.1 p rfl
        exact ih p (by omega) hr.2
    · exact hm

end

theorem parsePhotoshop_ends (env : Outside) (hP : ∀ kind bytes, bytes <:+: data → P (kind, bytes))
    (hm : m.Respects P) : Ends (parsePhotoshop env data m) (Metadata.Respects P) fun _ => False :=
  photoshopLoop_ends hP data.length 0 (by omega) hm

section
variable (hP : ∀ kind bytes, bytes <:+: data → P (kind, bytes))
include hP

theorem visitCom_respects (hm : m.Respects P) : (visitCom env data m).2.Respects P := by
  unfold visitCom
  split_ifs
  · exact hm.construct env (hP _ _ List.infix_rfl)
  · exact hm

theorem visitExif_ends (hm : m.Respects P) : Ends (visitExif env data m) (Metadata.Respects P) fun _ => False := by
  unfold visitExif
  cases hp : search exifHeader data with
  | none => exact hm
  | some pos =>
    obtain ⟨_, _, hle⟩ := search_eq_some hp
    have hs : exifHeader.length = 6 := by decide
    dsimp only
    rw [Nat.sub_sub, slice_rest (by omega)]
    exact hm.construct env (hP _ _ (List.drop_suffix _ _).isInfix)

theorem visitXmp_ends (hm : m.Respects P) : Ends (visitXmp env data m) (Metadata.Respects P) fun _ => False := by
  unfold visitXmp
  cases search xmpHeader data with
  | none => exact hm
  | some pos =>
    dsimp only
    split_ifs with hmr
    · rw [slice_rest hmr.le]
      exact hm.construct env (hP _ _ (List.drop_suffix _ _).isInfix)
    · exact hm

end

theorem visitAdobe_ends (hm : m.Respects P) : Ends (visitAdobe data m) (Metadata.Respects P) fun _ => False := by
  unfold visitAdobe
  split_ifs with h
  · obtain ⟨b, hb⟩ := byteAt_of_lt (show 11 < data.length by omega)
    rw [hb]
    exact hm
  · exact hm

theorem strncmp_ends {text : List UInt8} (hzr : 0 ∉ text.dropLast) (data : List UInt8) :
    Ends (strncmp text data) (fun _ => ¬ (data <+: text ∧ data ≠ text)) fun _ => data <+: text ∧ data ≠ text := by
  induction text generalizing data with
  | nil =>
    rintro ⟨hs, hne⟩
    exact hne (List.prefix_nil.1 hs)
  | cons c text ih =>
    cases data with
    | nil => exact ⟨List.nil_prefix, by simp⟩
    | cons d data =>
      rw [strncmp, List.cons_prefix_cons]
      split_ifs with hne hz
      · rintro ⟨⟨rfl, _⟩, _⟩
        exact hne rfl
      · -- the zero is the last byte of the text
        subst hz
        have hl : text = [] := by
          cases text with
          | nil => rfl
          | cons a text => simp at hzr
        subst hl
        rintro ⟨⟨rfl, hd⟩, hne⟩
        exact hne (by rw [List.prefix_nil.1 hd])
      · rw [not_not] at hne
        subst hne
        have hr : 0 ∉ text.dropLast := by
          cases text with
          | nil => simp
          | cons a text => exact fun h => hzr (by simp [h])
        simpa using ih hr data

theorem visitPhotoshop_ends (hP : ∀ kind bytes, bytes <:+: data → P (kind, bytes)) (hm : m.Respects P) :
    Ends (visitPhotoshop env data m)
      (fun m' => m'.Respects P ∧ ¬ (data <+: photoshopHeader ∧ data ≠ photoshopHeader))
      fun _ => data <+: photoshopHeader ∧ data ≠ photoshopHeader := by
  refine (strncmp_ends (by decide) data).bind fun equal hw => ?_
  split_ifs
  · refine (parsePhotoshop_ends env (fun kind bytes h => hP kind bytes ?_) hm).mono (fun m' hm' => ⟨hm', hw⟩)
      fun _ => False.elim
    exact h.trans (List.drop_suffix _ _).isInfix
  · exact ⟨hm, hw⟩

end

/-- No header of `APP2` or `APP13` is cut short. -/
structure Marker.IsWhole (mk : Marker) : Prop where
  icc : mk.marker = jpegApp0 + 2 → ∀ pos, search iccHeader mk.data = some pos → pos + 14 ≤ mk.data.length
  photoshop : mk.marker = jpegApp0 + 13 → ¬ (mk.data <+: photoshopHeader ∧ mk.data ≠ photoshopHeader)

/-- The part of a profile that is in a marker. -/
def Marker.iccPart (mk : Marker) : Option (List UInt8) :=
  if mk.marker = jpegApp0 + 2 then (search iccHeader mk.data).map fun pos => mk.data.drop (pos + 14) else none

/-- `parse_legacy` throws. -/
def Marker.stops (env : Outside) (mk : Marker) : Bool :=
  mk.marker = jpegCom ∧ mk.data.take 5 = ascii "SIPI:" ∧ env.throws .essentials mk.data = true

theorem Marker.isWhole_of_ne {mk : Marker} (hi : mk.marker ≠ jpegApp0 + 2)
    (hp : mk.marker ≠ jpegApp0 + 13) : mk.IsWhole :=
  ⟨fun h => absurd h hi, fun h => absurd h hp⟩

variable {s : WalkState}

theorem visit_ends (env : Outside) {mk : Marker} (hp : mk.iccPart = none)
    (hP : ∀ kind bytes, bytes <:+: mk.data → P (kind, bytes)) (hs : s.image.Respects P) :
    Ends (visit env mk s)
      (fun r => mk.IsWhole ∧ r.1 = mk.stops env ∧
        ∃ image : Metadata, r.2 = { s with image := image } ∧ image.Respects P)
      fun _ => ¬ mk.IsWhole := by
  unfold visit
  by_cases hc : mk.marker = jpegCom
  · rw [if_pos hc]
    refine ⟨Marker.isWhole_of_ne (by rw [hc]; decide) (by rw [hc]; decide), ?_, _, rfl, visitCom_respects hP hs⟩
    by_cases ht : mk.data.take 5 = ascii "SIPI:" <;>
      simp [visitCom, Marker.stops, Metadata.construct, hc, ht]
  have hst : false = mk.stops env := by simp [Marker.stops, hc]
  rw [if_neg hc]
  by_cases ha1 : mk.marker = jpegApp0 + 1
  · rw [if_pos ha1]
    have hw : mk.IsWhole := Marker.isWhole_of_ne (by rw [ha1]; decide) (by rw [ha1]; decide)
    refine ((visitExif_ends hP hs).mono (fun _ => id) fun _ => False.elim).bind fun m hm => ?_
    refine ((visitXmp_ends hP hm).mono (fun _ => id) fun _ => False.elim).map fun m' hm' => ?_
    exact ⟨hw, hst, m', rfl, hm'⟩
  rw [if_neg ha1]
  by_cases ha2 : mk.marker = jpegApp0 + 2
  · rw [if_pos ha2]
    rw [Marker.iccPart, if_pos ha2, Option.map_eq_none_iff] at hp
    rw [visitIcc, hp]
    refine ⟨⟨fun _ pos hps => ?_, fun h => absurd (ha2.symm.trans h) (by decide)⟩, hst, s.image, rfl, hs⟩
    rw [hp] at hps
    cases hps
  rw [if_neg ha2]
  by_cases ha13 : mk.marker = jpegApp0 + 13
  · rw [if_pos ha13]
    refine ((visitPhotoshop_ends hP hs).mono (fun _ => id) fun _ hct hw => ?_).map fun m hm => ?_
    · exact hw.photoshop ha13 hct
    · exact ⟨⟨fun h => absurd h ha2, fun _ => hm.2⟩, hst, m, rfl, hm.1⟩
  rw [if_neg ha13]
  have hw := Marker.isWhole_of_ne ha2 ha13
  split_ifs
  · refine ((visitAdobe_ends hs).mono (fun _ => id) fun _ => False.elim).map fun m hm => ?_
    exact ⟨hw, hst, m, rfl, hm⟩
  · exact ⟨hw, hst, s.image, rfl, hs⟩

/-! ### The profile -/

theorem toInt_of_lt (h : n < 2 ^ 31) : toInt n = n := by
  unfold toInt
  simp only [Int.bmod]
  omega

theorem toInt_of_ge (h : 2 ^ 31 ≤ n) (h' : n < 2 ^ 32) : toInt n = n - 2 ^ 32 := by
  unfold toInt
  simp only [Int.bmod]
  omega

theorem realloc_of_room {env : Outside} {block : Option (List UInt8)} {old : List UInt8} (ho : block.getD [] = old)
    (h : ¬ ((old.length : ℤ) + n = 0 ∧ block.isSome ∧ env.freesOnZero)) :
    realloc env block (old.length + n) = .ok (old ++ List.replicate n 0) := by
  have hs : ((old.length : ℤ) + n).toNat = old.length + n := by omega
  rw [realloc, if_neg (by omega), if_neg h, ho, hs, List.take_of_length_le (by omega), Nat.add_sub_cancel_left]

variable {part : List UInt8}

theorem memcpy_of_room {old src : List UInt8} (hs : slice src i part.length = .ok part) :
    memcpy (old ++ List.replicate part.length 0) old.length src i part.length = .ok (old ++ part) := by
  have hf : ¬ ((old.length : ℤ) < 0 ∨
      ((old ++ List.replicate part.length (0 : UInt8)).length : ℤ) < old.length + part.length) := by
    simp
  rw [memcpy, if_neg (by omega), if_neg hf, Int.toNat_natCast, Int.toNat_natCast, hs]
  simp [Except.map]

/-- The parts of a profile that have been read. -/
structure Collected (env : Outside) (parts : List (List UInt8)) (s : WalkState) : Prop where
  buffer : s.iccBuffer = if parts = [] then none else some parts.flatten
  len : s.iccBufferLen = toInt parts.flatten.length
  counted : parts.dropLast.flatten.length < 2 ^ 31
  small : ∀ part ∈ parts, part.length ≤ 65533
  kept : env.freesOnZero = true → ¬ [[], []] <+: parts

variable {pos : ℕ}

section
variable {env : Outside} {parts : List (List UInt8)} {s : WalkState}

theorem Collected.length_lt (h : Collected env parts s) : parts.flatten.length < 2 ^ 31 + 65534 := by
  rcases List.eq_nil_or_concat parts with rfl | ⟨before, part, rfl⟩
  · decide
  · have hc := h.counted
    have hs := h.small part (by simp)
    simp only [List.concat_eq_append, List.dropLast_concat, List.flatten_append, List.flatten_singleton,
      List.length_append] at hc ⊢
    omega

omit env s in
theorem two_empty_append_iff : [[], []] <+: parts ++ [part] ↔ [[], []] <+: parts ∨ (parts = [[]] ∧ part = []) := by
  rcases parts with _ | ⟨p, _ | ⟨q, rest⟩⟩
  · simp
  · simp [eq_comm]
  · simp

omit env s in
theorem two_empty_of_length (hne : parts ≠ [])
    (hz : parts.flatten.length + part.length = 0) : [[], []] <+: parts ++ [part] := by
  rw [two_empty_append_iff]
  rcases parts with _ | ⟨p, _ | ⟨q, rest⟩⟩
  · exact absurd rfl hne
  · simp_all
  · simp_all

theorem Collected.getD_buffer (h : Collected env parts s) : s.iccBuffer.getD [] = parts.flatten := by
  rw [h.buffer]
  split_ifs with hn
  · rw [hn]
    rfl
  · rfl

theorem Collected.append (h : Collected env parts s) (hlt : parts.flatten.length < 2 ^ 31) (hs : part.length ≤ 65533)
    (hk : ¬ ((parts.flatten.length : ℤ) + part.length = 0 ∧ s.iccBuffer.isSome ∧ env.freesOnZero)) :
    Collected env (parts ++ [part])
      ⟨s.image, some (parts.flatten ++ part), toInt (parts.flatten.length + part.length)⟩ := by
  refine ⟨by simp, by simp, by simpa using hlt, fun q hq => ?_, fun hf ht => ?_⟩
  · rcases List.mem_append.1 hq with ho | hn
    · exact h.small q ho
    · rw [List.mem_singleton.1 hn]
      exact hs
  · rcases two_empty_append_iff.1 ht with ho | ⟨rfl, rfl⟩
    · exact h.kept hf ho
    · exact hk ⟨by simp, by simp [h.buffer], hf⟩

theorem visitIcc_of_lt (h : Collected env parts s) (hlt : parts.flatten.length < 2 ^ 31)
    (hd : data.length ≤ 65533) (hps : search iccHeader data = some pos) (hw : pos + 14 ≤ data.length) :
    Ends (visitIcc env data s)
      (fun s' => Collected env (parts ++ [data.drop (pos + 14)]) s' ∧ s'.image = s.image)
      fun _ => env.freesOnZero = true ∧ [[], []] <+: parts ++ [data.drop (pos + 14)] := by
  have hl := h.len
  rw [toInt_of_lt hlt] at hl
  have hp : (data.length : ℤ) - pos - 14 = (data.drop (pos + 14)).length := by
    rw [List.length_drop]
    omega
  have hs : slice data (pos + 14) (data.drop (pos + 14)).length = .ok (data.drop (pos + 14)) := by
    rw [List.length_drop]
    exact slice_rest hw
  rw [visitIcc, hps]
  dsimp only
  rw [hp, hl]
  have hsm : (data.drop (pos + 14)).length ≤ 65533 := by
    rw [List.length_drop]
    omega
  generalize data.drop (pos + 14) = part at hs hsm
  by_cases hf : (parts.flatten.length : ℤ) + part.length = 0 ∧ s.iccBuffer.isSome ∧ env.freesOnZero
  · rw [realloc, if_neg (by omega), if_pos hf, error_bind]
    refine ⟨hf.2.2, two_empty_of_length ?_ (by omega)⟩
    rintro rfl
    simp [h.buffer] at hf
  · rw [realloc_of_room h.getD_buffer hf, ok_bind, memcpy_of_room hs]
    exact ⟨h.append hlt hsm hf, rfl⟩

theorem visitIcc_of_ge (h : Collected env parts s) (hge : 2 ^ 31 ≤ parts.flatten.length)
    (hd : data.length ≤ 65533) (hp : search iccHeader data = some pos) :
    visitIcc env data s = .error .negativeSize := by
  have hl := h.len
  rw [toInt_of_ge hge (by have := h.length_lt; omega)] at hl
  have hb := h.length_lt
  rw [visitIcc, hp]
  dsimp only
  rw [realloc, if_pos (by omega), error_bind]

theorem visitIcc_of_cut (env : Outside) (s : WalkState)
    (hp : search iccHeader data = some pos) (hc : data.length < pos + 14) :
    Ends (visitIcc env data s) (fun _ => False) fun _ => True := by
  rw [visitIcc, hp]
  refine (ends_trivial _).bind fun block _ => ?_
  rw [memcpy, if_pos (by omega)]
  trivial

end

/-! ### The whole walk -/

/-- The markers before an exception leaves the walk. -/
def visited (env : Outside) (markers : List Marker) : List Marker := markers.takeWhile fun mk => !mk.stops env

/-- The parts of the profile in them. -/
def iccParts (env : Outside) (markers : List Marker) : List (List UInt8) :=
  (visited env markers).filterMap Marker.iccPart

/-- The parts whose length is used as a size. -/
def countedParts (env : Outside) (before : List (List UInt8)) (markers : List Marker) : List (List UInt8) :=
  if markers.any (Marker.stops env) then (before ++ iccParts env markers).dropLast
  else before ++ iccParts env markers

/-- Nothing is wrong with the markers. -/
structure Orderly (env : Outside) (before : List (List UInt8)) (markers : List Marker) : Prop where
  whole : ∀ mk ∈ visited env markers, mk.IsWhole
  kept : env.freesOnZero = true → ¬ [[], []] <+: before ++ iccParts env markers
  counted : (countedParts env before markers).flatten.length < 2 ^ 31

section
variable {env : Outside} {before : List (List UInt8)} {mk : Marker} {markers : List Marker}

theorem Marker.isWhole_of_stops (h : mk.stops env = true) : mk.IsWhole := by
  have hc : mk.marker = jpegCom := by
    simp only [Marker.stops, decide_eq_true_eq] at h
    exact h.1
  exact Marker.isWhole_of_ne (by rw [hc]; decide) (by rw [hc]; decide)

theorem visited_cons (h : mk.stops env = false) : visited env (mk :: markers) = mk :: visited env markers := by
  simp [visited, h]

theorem iccParts_cons (h : mk.stops env = false) (before : List (List UInt8)) (markers : List Marker) :
    before ++ iccParts env (mk :: markers) = before ++ mk.iccPart.toList ++ iccParts env markers := by
  rw [iccParts, visited_cons h, List.filterMap_cons]
  cases mk.iccPart with
  | none | some => simp [iccParts]

theorem orderly_cons_iff (h : mk.stops env = false) :
    Orderly env before (mk :: markers) ↔ mk.IsWhole ∧ Orderly env (before ++ mk.iccPart.toList) markers := by
  have hp := iccParts_cons h before markers
  have hc :
      countedParts env before (mk :: markers) = countedParts env (before ++ mk.iccPart.toList) markers := by
    rw [countedParts, countedParts, hp, List.any_cons, h, Bool.false_or]
  constructor
  · rintro ⟨hw, hk, hlt⟩
    rw [visited_cons h] at hw
    exact ⟨hw mk List.mem_cons_self,
      ⟨fun m hm => hw m (List.mem_cons_of_mem mk hm), hp ▸ hk, hc ▸ hlt⟩⟩
  · rintro ⟨hf, hw, hk, hlt⟩
    refine ⟨?_, hp ▸ hk, hc ▸ hlt⟩
    rw [visited_cons h]
    exact List.forall_mem_cons.2 ⟨hf, hw⟩

theorem orderly_of_stops (hs : Collected env before s) (h : mk.stops env = true) :
    Orderly env before (mk :: markers) := by
  have hp : iccParts env (mk :: markers) = [] := by simp [iccParts, visited, h]
  refine ⟨by simp [visited, h], ?_, ?_⟩
  · rw [hp, List.append_nil]
    exact hs.kept
  · rw [countedParts, hp, List.append_nil, List.any_cons, h, Bool.true_or, if_pos rfl]
    exact hs.counted

theorem Marker.iccPart_eq_some (h : mk.iccPart = some part) :
    mk.marker = jpegApp0 + 2 ∧ ∃ pos, search iccHeader mk.data = some pos ∧ mk.data.drop (pos + 14) = part := by
  rw [Marker.iccPart] at h
  split at h
  · next ha2 => exact ⟨ha2, Option.map_eq_some_iff.1 h⟩
  · cases h

theorem visit_of_icc (h : mk.marker = jpegApp0 + 2) (s : WalkState) :
    visit env mk s = (visitIcc env mk.data s).map fun s => (false, s) := by
  rw [visit, if_neg (by rw [h]; decide), if_neg (by rw [h]; decide), if_pos h]

theorem not_orderly_of_ge (h : 2 ^ 31 ≤ before.flatten.length) : ¬ Orderly env (before ++ [part]) markers := by
  intro ho
  have hlt := ho.counted
  have hs : before <+: countedParts env (before ++ [part]) markers := by
    rw [countedParts, List.append_assoc, List.dropLast_append_of_ne_nil (by simp)]
    split_ifs <;> exact List.prefix_append _ _
  have hle := (hs.flatten).length_le
  omega

theorem visitIcc_ends (hs : Collected env before s) (ha2 : mk.marker = jpegApp0 + 2)
    (hp : search iccHeader mk.data = some pos) (markers : List Marker) :
    Ends (visitIcc env mk.data s)
      (fun s' => mk.IsWhole ∧ Collected env (before ++ [mk.data.drop (pos + 14)]) s' ∧ s'.image = s.image)
      fun _ => ¬ (mk.IsWhole ∧ Orderly env (before ++ [mk.data.drop (pos + 14)]) markers) := by
  rcases Nat.lt_or_ge mk.data.length (pos + 14) with hc | hfl
  · refine (visitIcc_of_cut env s hp hc).mono (fun _ => False.elim) fun _ _ h => ?_
    have := h.1.icc ha2 pos hp
    omega
  have hw : mk.IsWhole := by
    refine ⟨fun _ pos' hp' => ?_, fun h => absurd (ha2.symm.trans h) (by decide)⟩
    rw [hp] at hp'
    cases hp'
    exact hfl
  rcases Nat.lt_or_ge before.flatten.length (2 ^ 31) with hlt | hge
  · refine (visitIcc_of_lt hs hlt mk.length_le hp hfl).mono (fun s' hs' => ⟨hw, hs'⟩) fun _ hf h => ?_
    exact h.2.kept hf.1 (hf.2.trans (List.prefix_append _ _))
  · rw [visitIcc_of_ge hs hge mk.length_le hp]
    exact fun h => not_orderly_of_ge hge h.2

theorem finishIcc_ends (hs : Collected env before s) (hP : P (.icc, before.flatten)) (hi : s.image.Respects P) :
    Ends (finishIcc env s) (fun m => Orderly env before [] ∧ m.Respects P) fun _ => ¬ Orderly env before [] := by
  have hif : Orderly env before [] ↔ before.flatten.length < 2 ^ 31 := by
    refine ⟨fun h => by simpa [countedParts, iccParts, visited] using h.counted,
      fun h => ⟨by simp [visited], ?_, ?_⟩⟩
    · simpa [iccParts, visited] using hs.kept
    · simpa [countedParts, iccParts, visited] using h
  rw [hif, finishIcc, hs.buffer]
  by_cases hn : before = []
  · subst hn
    exact ⟨by simp, hi⟩
  · rw [if_neg hn]
    dsimp only
    rcases Nat.lt_or_ge before.flatten.length (2 ^ 31) with hlt | hge
    · rw [hs.len, toInt_of_lt hlt, if_neg (by omega), Int.toNat_natCast, slice_of_le (by omega), List.drop_zero,
        List.take_length]
      exact ⟨hlt, hi.construct env hP⟩
    · have hb := hs.length_lt
      rw [hs.len, toInt_of_ge hge (by omega), if_pos (by omega)]
      exact not_lt.2 hge

theorem walk_ends (markers : List Marker) (before : List (List UInt8)) (hs : Collected env before s)
    (hP : ∀ mk ∈ markers, ∀ kind bytes, bytes <:+: mk.data → P (kind, bytes))
    (hic : P (.icc, (before ++ iccParts env markers).flatten)) (hi : s.image.Respects P) :
    Ends (walk env markers s) (fun m => Orderly env before markers ∧ m.Respects P)
      fun _ => ¬ Orderly env before markers := by
  induction markers generalizing before s with
  | nil =>
    rw [show iccParts env [] = [] from rfl, List.append_nil] at hic
    exact finishIcc_ends hs hic hi
  | cons mk markers ih =>
    have hre : ∀ m ∈ markers, ∀ kind bytes, bytes <:+: m.data → P (kind, bytes) :=
      fun m hm => hP m (List.mem_cons_of_mem mk hm)
    rw [walk]
    cases hp : mk.iccPart with
    | none =>
      have hv := visit_ends env hp (hP mk List.mem_cons_self) hi
      refine (hv.mono (fun _ => id) fun _ hct ho => ?_).bind fun r hr => ?_
      · -- a marker that stops the walk has no header
        cases hst : mk.stops env with
        | true => exact hct (Marker.isWhole_of_stops hst)
        | false => exact hct ((orderly_cons_iff hst).1 ho).1
      · obtain ⟨flag, s'⟩ := r
        obtain ⟨hw, rfl, image, rfl, hrs⟩ := hr
        cases hst : mk.stops env with
        | true => exact ⟨orderly_of_stops hs hst, hrs⟩
        | false =>
          rw [iccParts_cons hst, hp] at hic
          rw [orderly_cons_iff hst, hp, Option.toList_none, List.append_nil, and_iff_right hw]
          exact ih before ⟨hs.buffer, hs.len, hs.counted, hs.small, hs.kept⟩ hre (by simpa using hic) hrs
    | some part =>
      obtain ⟨ha2, pos, hps, rfl⟩ := Marker.iccPart_eq_some hp
      have hst : mk.stops env = false := by
        rw [Marker.stops, ha2]
        simp [jpegCom, jpegApp0]
      rw [iccParts_cons hst, hp] at hic
      rw [visit_of_icc ha2, orderly_cons_iff hst, hp, Option.toList_some]
      refine ((visitIcc_ends hs ha2 hps markers).map (R := fun r => mk.IsWhole ∧ r.1 = false ∧
        Collected env (before ++ [mk.data.drop (pos + 14)]) r.2 ∧ r.2.image = s.image) ?_).bind ?_
      · rintro s' ⟨hw, hc, hi'⟩
        exact ⟨hw, rfl, hc, hi'⟩
      · rintro ⟨flag, s'⟩ ⟨hw, rfl, hc, hi'⟩
        rw [and_iff_right hw]
        exact ih _ hc hre hic (hi' ▸ hi)

end

/-- A part of a marker, or the profile. -/
def IsPart (env : Outside) (markers : List Marker) (call : Resource × List UInt8) : Prop :=
  (∃ mk ∈ markers, call.2 <:+: mk.data) ∨ call = (.icc, (iccParts env markers).flatten)

/-- The walk ends, and builds from parts of markers. -/
def ReadsSafely (env : Outside) (markers : List Marker) : Prop :=
  ∃ m, readMarkers env markers = .ok m ∧ m.Respects (IsPart env markers)

theorem collected_nil (env : Outside) (image : Metadata) : Collected env [] ⟨image, none, 0⟩ :=
  ⟨rfl, rfl, by decide, by simp, by simp⟩

/-- **The markers of a JPEG file are parsed in bounds exactly if** no header of a profile or of Photoshop resources
is cut, the profile has fewer than `2 ^ 31` bytes, and its first two parts are not both empty where `realloc` frees a
block of zero bytes. -/
theorem markers_safe_iff (env : Outside) (markers : List Marker) :
    ReadsSafely env markers ↔ Orderly env [] markers := by
  have he : Ends (readMarkers env markers) (fun m => Orderly env [] markers ∧ m.Respects (IsPart env markers))
      fun _ => ¬ Orderly env [] markers :=
    walk_ends markers [] (collected_nil env _) (fun mk hmk kind bytes h => Or.inl ⟨mk, hmk, h⟩) (Or.inr rfl)
      fun call hc => absurd hc List.not_mem_nil
  constructor
  · rintro ⟨m, hm, _⟩
    exact (he.of_ok hm).1
  · intro ho
    obtain ⟨m, hm, hr⟩ := (he.mono (fun _ => And.right) fun _ h => h ho).exists_ok
    exact ⟨m, hm, hr⟩

/-- No constructor throws. -/
def quiet : Outside := ⟨fun _ _ => false, false⟩

/-- A part of a profile, with its two numbers. -/
def iccFirst : Marker := ⟨jpegApp0 + 2, iccHeader ++ [1, 2, 7, 7], by decide⟩

/-- A part that ends behind the first of them. -/
def iccCut : Marker := ⟨jpegApp0 + 2, iccHeader ++ [2], by decide⟩

theorem cut_part_faults : readMarkers quiet [iccFirst, iccCut] = .error .negativeSize ∧
    ¬ ReadsSafely quiet [iccFirst, iccCut] := by
  have hf : readMarkers quiet [iccFirst, iccCut] = .error .negativeSize := rfl
  refine ⟨hf, ?_⟩
  rintro ⟨m, hm, _⟩
  rw [hf] at hm
  cases hm

end Sipi.Formats
