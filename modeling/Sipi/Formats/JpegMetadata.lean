import Sipi.Formats.JpegMarkers

/-!
# Writing metadata to a JPEG file

`SipiIOJpeg::write` puts EXIF data, an XMP packet, an ICC profile and IPTC data into markers, and
`SipiIOJpeg::read` takes them out again.

## Honest scope

A profile has at most 255 parts. No metadata contain a header that the reader looks for. An empty XMP packet counts
as none.
-/

namespace Sipi.Formats

open Sipi.Theory Sipi.Iiif

/-! ### The writer -/

/-- The metadata of an image, in bytes. -/
structure ImageMetadata where
  exif : Option (List UInt8)
  xmp : Option (List UInt8)
  icc : Option (List UInt8)
  iptc : Option (List UInt8)

/-- What libjpeg reports. -/
inductive JpegError where
  | badLength
  deriving DecidableEq

/-- `jpeg_write_marker`. -/
def jpegWriteMarker (marker : UInt8) (data : List UInt8) : Except JpegError Marker :=
  if h : data.length ≤ 65533 then .ok ⟨marker, data, h⟩ else .error .badLength

/-- EXIF data. -/
def writeExif (buf : List UInt8) : Except JpegError (List Marker) :=
  if buf.length ≤ 65535 then (jpegWriteMarker (jpegApp0 + 1) (exifHeader ++ buf)).map fun mk => [mk] else .ok []

/-- An XMP packet. -/
def writeXmp (buf : List UInt8) : Except JpegError (List Marker) :=
  if buf ≠ [] ∧ buf.length ≤ 65535 then (jpegWriteMarker (jpegApp0 + 1) (xmpHeader ++ buf)).map fun mk => [mk]
  else .ok []

/-- The loop that writes a profile. -/
def iccLoop (buf : List UInt8) (n : ℕ) : ℕ → ℕ → ℕ → ℕ → ℕ → Except JpegError (List Marker)
  | 0, _, _, _, _ => .ok []
  | rounds + 1, i, toWrite, nextWrite, written =>
    let nextWrite := if toWrite < nextWrite then toWrite else nextWrite
    jpegWriteMarker (jpegApp0 + 2)
        (iccHeader ++ [UInt8.ofNat (i + 1), UInt8.ofNat n] ++ (buf.drop written).take nextWrite) >>= fun mk =>
      (iccLoop buf n rounds (i + 1) (toWrite - nextWrite) nextWrite (written + nextWrite)).map (mk :: ·)

/-- A profile. -/
def writeIcc (buf : List UInt8) : Except JpegError (List Marker) :=
  let n := (buf.length / (65533 - 14 + 1) + 1) % 2 ^ 32
  iccLoop buf n n 0 (buf.length % 2 ^ 32) (65533 - 14) 0

/-- The header of IPTC data. -/
def iptcHeader : List UInt8 := ascii " Photoshop 3.0" ++ [0] ++ ascii "8BIM" ++ [4, 4, 0, 0]

/-- `siz`. -/
def sizeBytes (size : ℕ) : List UInt8 :=
  [UInt8.ofNat (size >>> 24), UInt8.ofNat (size >>> 16), UInt8.ofNat (size >>> 8), UInt8.ofNat size]

/-- IPTC data, with their header. -/
def writeIptc (buf : List UInt8) : Except JpegError (List Marker) :=
  if buf.length ≤ 65535 then
    (jpegWriteMarker (jpegApp0 + 13)
      ((iptcHeader ++ sizeBytes buf.length ++ buf).take (iptcHeader.length + buf.length))).map fun mk => [mk]
  else .ok []

/-- Metadata that may be missing. -/
def writeIfAny (write : List UInt8 → Except JpegError (List Marker)) :
    Option (List UInt8) → Except JpegError (List Marker)
  | none => .ok []
  | some buf => write buf

/-- The markers that `SipiIOJpeg::write` emits. -/
def writeMarkers (img : ImageMetadata) : Except JpegError (List Marker) :=
  writeIfAny writeExif img.exif >>= fun exif => writeIfAny writeXmp img.xmp >>= fun xmp =>
    writeIfAny writeIcc img.icc >>= fun icc => (writeIfAny writeIptc img.iptc).map fun iptc =>
      exif ++ (xmp ++ (icc ++ iptc))

theorem jpegWriteMarker_of_le {marker : UInt8} {data : List UInt8} (h : data.length ≤ 65533) :
    jpegWriteMarker marker data = .ok ⟨marker, data, h⟩ := dif_pos h

theorem jpegWriteMarker_ends (marker : UInt8) (data : List UInt8) :
    Ends (jpegWriteMarker marker data) (fun mk => mk.marker = marker ∧ mk.data = data ∧ data.length ≤ 65533)
      fun _ => 65533 < data.length := by
  unfold jpegWriteMarker
  split_ifs with h
  · exact ⟨rfl, rfl, h⟩
  · exact not_le.1 h

@[simp] theorem length_exifHeader : exifHeader.length = 6 := rfl

@[simp] theorem length_xmpHeader : xmpHeader.length = 29 := rfl

@[simp] theorem length_iccHeader : iccHeader.length = 12 := rfl

@[simp] theorem length_iptcHeader : iptcHeader.length = 23 := rfl

/-! ### Reading what is written -/

section
variable {env : Outside} {s s' s'' : WalkState}

/-- The constructors are called one after the other. -/
def Metadata.constructAll (env : Outside) (calls : List (Resource × List UInt8)) (m : Metadata) : Metadata :=
  calls.foldl (fun m call => (m.construct env call.1 call.2).2) m

theorem Metadata.calls_constructAll (env : Outside) (calls : List (Resource × List UInt8)) (m : Metadata) :
    (m.constructAll env calls).calls = m.calls ++ calls := by
  induction calls generalizing m with
  | nil => simp [constructAll]
  | cons call calls ih =>
    rw [constructAll, List.foldl_cons, ← constructAll, ih]
    simp [construct]

/-- The walk goes from one state to another. -/
def Passes (env : Outside) (mks : List Marker) (s s' : WalkState) : Prop :=
  ∀ rest, walk env (mks ++ rest) s = walk env rest s'

theorem passes_nil (s : WalkState) : Passes env [] s s := fun _ => rfl

theorem Passes.append {mks mks' : List Marker} (h : Passes env mks s s') (h' : Passes env mks' s' s'') :
    Passes env (mks ++ mks') s s'' := by
  intro rest
  rw [List.append_assoc, h, h']

theorem passes_of_visit {mk : Marker} (h : visit env mk s = .ok (false, s')) : Passes env [mk] s s' := by
  intro rest
  rw [List.singleton_append, walk, h]
  rfl

theorem visit_exif {mk : Marker} {buf : List UInt8} (hm : mk.marker = jpegApp0 + 1)
    (hd : mk.data = exifHeader ++ buf) (hf : ¬ xmpHeader <:+: buf) (s : WalkState) :
    visit env mk s = .ok (false, { s with image := (s.image.construct env .exif buf).2 }) := by
  have hx : search xmpHeader (exifHeader ++ buf) = none := by
    rw [search_eq_none_iff]
    exact fun h => hf ((infix_append_iff (by decide)).1 h)
  have hs : slice (exifHeader ++ buf) (0 + 6) ((exifHeader ++ buf).length - 0 - 6) = .ok buf := by
    rw [Nat.sub_sub, slice_rest (by simp), zero_add, ← length_exifHeader, List.drop_left]
  rw [visit, hm, if_neg (by decide), if_pos rfl, hd, visitExif, search_of_prefix (List.prefix_append _ _)]
  dsimp only
  rw [hs]
  simp [Except.map, visitXmp, hx]

theorem visit_xmp {mk : Marker} {buf : List UInt8} (hmr : mk.marker = jpegApp0 + 1)
    (hd : mk.data = xmpHeader ++ buf) (hne : buf ≠ []) (hf : ¬ exifHeader <:+: buf) (s : WalkState) :
    visit env mk s = .ok (false, { s with image := (s.image.construct env .xmp buf).2 }) := by
  have he : search exifHeader (xmpHeader ++ buf) = none := by
    rw [search_eq_none_iff]
    exact fun h => hf ((infix_append_iff (by decide)).1 h)
  have hm : 0 + 29 < (xmpHeader ++ buf).length := by
    have := List.length_pos_iff.2 hne
    rw [List.length_append, length_xmpHeader]
    omega
  have hs : slice (xmpHeader ++ buf) (0 + 29) ((xmpHeader ++ buf).length - (0 + 29)) = .ok buf := by
    rw [slice_rest hm.le, zero_add, ← length_xmpHeader, List.drop_left]
  rw [visit, hmr, if_neg (by decide), if_pos rfl, hd, visitExif, he, ok_bind, visitXmp,
    search_of_prefix (List.prefix_append _ _)]
  dsimp only
  rw [if_pos hm, hs]
  rfl

theorem visit_iptc {mk : Marker} {rest : List UInt8} (hm : mk.marker = jpegApp0 + 13)
    (hd : mk.data = 0x20 :: rest) (s : WalkState) : visit env mk s = .ok (false, s) := by
  rw [visit, hm, if_neg (by decide), if_neg (by decide), if_neg (by decide), if_pos rfl, hd, visitPhotoshop]
  rfl

/-- Data that are not in the gap below the limit. -/
def Accepted (header : ℕ) (buf : List UInt8) : Prop := header + buf.length ≤ 65533 ∨ 65535 < buf.length

/-- What becomes of EXIF data. -/
def exifCalls (buf : List UInt8) : List (Resource × List UInt8) := if buf.length ≤ 65535 then [(.exif, buf)] else []

/-- What becomes of an XMP packet. -/
def xmpCalls (buf : List UInt8) : List (Resource × List UInt8) :=
  if buf ≠ [] ∧ buf.length ≤ 65535 then [(.xmp, buf)] else []

/-- The calls of the reader, or libjpeg refuses. -/
def Emits (env : Outside) (written : Except JpegError (List Marker)) (ok : Prop)
    (calls : List (Resource × List UInt8)) : Prop :=
  Ends written (fun mks => ok ∧ ∀ s, Passes env mks s { s with image := s.image.constructAll env calls })
    fun _ => ¬ ok

theorem emits_marker {marker : UInt8} {data : List UInt8} {calls : List (Resource × List UInt8)}
    (h : ∀ mk : Marker, mk.marker = marker → mk.data = data → ∀ s : WalkState,
      visit env mk s = .ok (false, { s with image := s.image.constructAll env calls })) :
    Emits env ((jpegWriteMarker marker data).map fun mk => [mk]) (data.length ≤ 65533) calls := by
  refine ((jpegWriteMarker_ends marker data).mono (fun _ => id) fun _ => not_le.2).map fun mk hmk => ?_
  exact ⟨hmk.2.2, fun s => passes_of_visit (h mk hmk.1 hmk.2.1 s)⟩

theorem emits_nothing : Emits env (.ok []) True [] := ⟨trivial, fun s => passes_nil s⟩

theorem Emits.congr {written : Except JpegError (List Marker)} {ok ok' : Prop} {calls : List (Resource × List UInt8)}
    (h : Emits env written ok calls) (hok : ok ↔ ok') : Emits env written ok' calls :=
  Ends.mono h (fun _ hm => ⟨hok.1 hm.1, hm.2⟩) fun _ hn ho' => hn (hok.2 ho')

theorem writeExif_emits {buf : List UInt8} (hf : ¬ xmpHeader <:+: buf) :
    Emits env (writeExif buf) (Accepted 6 buf) (exifCalls buf) := by
  unfold writeExif exifCalls Accepted
  split_ifs with hle
  · refine (emits_marker fun mk hm hd s => visit_exif hm hd hf s).congr ?_
    rw [List.length_append, length_exifHeader]
    omega
  · exact emits_nothing.congr (by simp; omega)

theorem writeXmp_emits {buf : List UInt8} (hf : ¬ exifHeader <:+: buf) :
    Emits env (writeXmp buf) (Accepted 29 buf) (xmpCalls buf) := by
  unfold writeXmp xmpCalls Accepted
  split_ifs with hle
  · refine (emits_marker fun mk hm hd s => visit_xmp hm hd hle.1 hf s).congr ?_
    rw [List.length_append, length_xmpHeader]
    omega
  · refine emits_nothing.congr (iff_of_true trivial ?_)
    by_cases hn : buf = []
    · simp [hn]
    · exact .inr (not_le.1 fun h => hle ⟨hn, h⟩)

theorem writeIptc_emits (buf : List UInt8) : Emits env (writeIptc buf) (Accepted 23 buf) [] := by
  unfold writeIptc Accepted
  split_ifs with hle
  · have hb : iptcHeader = 0x20 :: iptcHeader.tail := rfl
    have hp : ∀ mk : Marker, mk.marker = jpegApp0 + 13 →
        mk.data = (iptcHeader ++ sizeBytes buf.length ++ buf).take (iptcHeader.length + buf.length) →
          ∀ s : WalkState, visit env mk s = .ok (false, { s with image := s.image.constructAll env [] }) := by
      intro mk hm hd s
      rw [hb, List.length_cons, Nat.add_right_comm, List.cons_append, List.cons_append,
        List.take_succ_cons] at hd
      exact visit_iptc hm hd s
    refine (emits_marker hp).congr ?_
    rw [List.length_take, List.length_append, List.length_append, length_iptcHeader]
    omega
  · exact emits_nothing.congr (by simp; omega)

theorem writeIfAny_emits {write : List UInt8 → Except JpegError (List Marker)} {ok : List UInt8 → Prop}
    {calls : List UInt8 → List (Resource × List UInt8)} {any : Option (List UInt8)}
    (h : ∀ buf ∈ any, Emits env (write buf) (ok buf) (calls buf)) :
    Emits env (writeIfAny write any) (∀ buf ∈ any, ok buf) (any.toList.flatMap calls) := by
  cases any with
  | none => exact emits_nothing.congr (by simp)
  | some buf =>
    rw [writeIfAny, Option.toList_some, List.flatMap_singleton]
    exact (h buf rfl).congr (by simp)

/-! ### The profile -/

/-- A part of a profile. -/
def partOf (buf : List UInt8) (i : ℕ) : List UInt8 := (buf.drop (65519 * i)).take 65519

theorem length_partOf_le (buf : List UInt8) (i : ℕ) : (partOf buf i).length ≤ 65519 := by
  rw [partOf, List.length_take]
  omega

/-- The marker with a part of a profile. -/
def iccMarker (buf : List UInt8) (n i : ℕ) : Marker where
  marker := jpegApp0 + 2
  data := iccHeader ++ [UInt8.ofNat (i + 1), UInt8.ofNat n] ++ partOf buf i
  length_le := by
    have := length_partOf_le buf i
    simp only [List.length_append, length_iccHeader, List.length_cons, List.length_nil]
    omega

theorem iccLoop_eq (buf : List UInt8) (n rounds i toWrite nextWrite written : ℕ)
    (hw : written = min (65519 * i) buf.length) (ht : toWrite = buf.length - written)
    (hn : nextWrite = 65519 ∨ toWrite = 0) :
    iccLoop buf n rounds i toWrite nextWrite written = .ok ((List.range' i rounds).map (iccMarker buf n)) := by
  induction rounds generalizing i toWrite nextWrite written with
  | zero => rfl
  | succ rounds ih =>
    have hd : buf.drop written = buf.drop (65519 * i) := by
      rcases Nat.le_total (65519 * i) buf.length with hle | hge
      · rw [hw, min_eq_left hle]
      · rw [hw, min_eq_right hge, List.drop_eq_nil_of_le hge, List.drop_length]
    have hp : (buf.drop written).take (if toWrite < nextWrite then toWrite else nextWrite) = partOf buf i := by
      rw [partOf, ← hd, List.take_eq_take_iff, List.length_drop]
      split_ifs <;> omega
    have hm : jpegWriteMarker (jpegApp0 + 2)
        (iccHeader ++ [UInt8.ofNat (i + 1), UInt8.ofNat n] ++ partOf buf i) = .ok (iccMarker buf n i) :=
      jpegWriteMarker_of_le (iccMarker buf n i).length_le
    rw [iccLoop, hp, hm, ok_bind,
      ih (i + 1) _ _ _ (by split_ifs <;> omega) (by split_ifs <;> omega) (by split_ifs <;> omega)]
    rfl

/-- The number of parts that are written. -/
def partCount (buf : List UInt8) : ℕ := buf.length / 65520 + 1

theorem writeIcc_eq {buf : List UInt8} (h : partCount buf ≤ 255) :
    writeIcc buf = .ok ((List.range (partCount buf)).map (iccMarker buf (partCount buf))) := by
  unfold partCount at *
  have hc : (buf.length / (65533 - 14 + 1) + 1) % 2 ^ 32 = buf.length / 65520 + 1 :=
    Nat.mod_eq_of_lt (by omega)
  have hs : buf.length % 2 ^ 32 = buf.length := Nat.mod_eq_of_lt (by omega)
  rw [writeIcc, hc, hs, iccLoop_eq _ _ _ _ _ _ _ (by simp) (by simp) (.inl rfl), List.range_eq_range']

theorem flatten_parts (buf : List UInt8) (n : ℕ) :
    ((List.range n).map (partOf buf)).flatten = buf.take (65519 * n) := by
  induction n with
  | zero => simp
  | succ n ih =>
    rw [List.range_succ, List.map_append, List.flatten_append, ih, Nat.mul_succ, List.take_add]
    simp [partOf]

theorem not_two_empty {buf : List UInt8} {k : ℕ} (hk : k ≤ partCount buf) :
    ¬ [[], []] <+: (List.range k).map (partOf buf) := by
  rcases k with _ | _ | k
  · simp
  · simp
  · intro h
    rw [List.range_succ_eq_map, List.map_cons, List.cons_prefix_cons] at h
    have he := congrArg List.length h.1
    rw [partOf, List.length_take, List.length_drop, List.length_nil] at he
    unfold partCount at hk
    omega

theorem visit_iccMarker {before : List (List UInt8)} (hs : Collected env before s)
    (hlt : before.flatten.length < 2 ^ 31) (buf : List UInt8) (n i : ℕ)
    (hk : ¬ [[], []] <+: before ++ [partOf buf i]) :
    ∃ s', visit env (iccMarker buf n i) s = .ok (false, s') ∧ Collected env (before ++ [partOf buf i]) s' ∧
      s'.image = s.image := by
  have hp : search iccHeader (iccMarker buf n i).data = some 0 :=
    search_of_prefix ((List.prefix_append _ _).trans (List.prefix_append _ _))
  have hd : (iccMarker buf n i).data.drop (0 + 14) = partOf buf i :=
    @List.drop_left _ (iccHeader ++ [UInt8.ofNat (i + 1), UInt8.ofNat n]) (partOf buf i)
  have hf : 0 + 14 ≤ (iccMarker buf n i).data.length := by
    simp only [iccMarker, List.length_append, length_iccHeader, List.length_cons, List.length_nil]
    omega
  have he := visitIcc_of_lt hs hlt (iccMarker buf n i).length_le hp hf
  rw [hd] at he
  obtain ⟨s', hs', hc, hi⟩ := (he.mono (fun _ => id) fun _ h => hk h.2).exists_ok
  exact ⟨s', by rw [visit_of_icc rfl, hs']; rfl, hc, hi⟩

theorem passes_iccMarkers {buf : List UInt8} (hs : Collected env [] s) (hsz : buf.length < 2 ^ 31) (n k : ℕ)
    (hk : k ≤ partCount buf) :
    ∃ s', Passes env ((List.range k).map (iccMarker buf n)) s s' ∧
      Collected env ((List.range k).map (partOf buf)) s' ∧ s'.image = s.image := by
  induction k with
  | zero => exact ⟨s, passes_nil s, hs, rfl⟩
  | succ k ih =>
    obtain ⟨s₁, hp, hc, hi⟩ := ih (by omega)
    have hlt : ((List.range k).map (partOf buf)).flatten.length < 2 ^ 31 := by
      rw [flatten_parts, List.length_take]
      omega
    have hkp := not_two_empty hk
    rw [List.range_succ, List.map_append, List.map_singleton] at hkp
    obtain ⟨s₂, hv, hc', hi'⟩ := visit_iccMarker hc hlt buf n k hkp
    rw [List.range_succ, List.map_append, List.map_append]
    exact ⟨s₂, hp.append (passes_of_visit hv), hc', hi'.trans hi⟩

/-- The parts of a profile that may be missing. -/
def partsOf (icc : Option (List UInt8)) : List (List UInt8) :=
  icc.toList.flatMap fun buf => (List.range (partCount buf)).map (partOf buf)

/-- What becomes of a profile. -/
def iccCalls (buf : List UInt8) : List (Resource × List UInt8) := [(.icc, buf.take (65519 * partCount buf))]

theorem writeIcc_ends (env : Outside) {icc : Option (List UInt8)} (h : ∀ buf ∈ icc, partCount buf ≤ 255) :
    Ends (writeIfAny writeIcc icc)
      (fun mks => ∀ s, Collected env [] s →
        ∃ s', Passes env mks s s' ∧ Collected env (partsOf icc) s' ∧ s'.image = s.image)
      fun _ => False := by
  cases icc with
  | none => exact fun s hs => ⟨s, passes_nil s, hs, rfl⟩
  | some buf =>
    have hc := h buf rfl
    rw [writeIfAny, writeIcc_eq hc]
    unfold partCount at hc
    intro s hs
    simpa [partsOf] using passes_iccMarkers hs (by omega) (partCount buf) (partCount buf) le_rfl

theorem finishIcc_parts {icc : Option (List UInt8)} (h : ∀ buf ∈ icc, partCount buf ≤ 255)
    (hs : Collected env (partsOf icc) s) :
    finishIcc env s = .ok (s.image.constructAll env (icc.toList.flatMap iccCalls)) := by
  cases icc with
  | none =>
    rw [finishIcc, hs.buffer]
    rfl
  | some buf =>
    have hc := h buf rfl
    have hp : (partsOf (some buf)).flatten = buf.take (65519 * partCount buf) := by
      rw [partsOf, Option.toList_some, List.flatMap_singleton, flatten_parts]
    have hne : partsOf (some buf) ≠ [] := by
      simp [partsOf, partCount]
    have hlt : (buf.take (65519 * partCount buf)).length < 2 ^ 31 := by
      unfold partCount at hc
      rw [List.length_take]
      omega
    rw [finishIcc, hs.buffer, if_neg hne, hs.len, hp, toInt_of_lt hlt]
    dsimp only
    rw [if_neg (by omega), Int.toNat_natCast, slice_of_le (by omega), List.drop_zero, List.take_length]
    rfl

/-! ### All metadata -/

/-- The headers that the reader looks for. -/
def readerHeaders : List (List UInt8) := [exifHeader, xmpHeader, iccHeader, photoshopHeader]

/-- No metadata contain such a header. -/
def ImageMetadata.HeaderFree (img : ImageMetadata) : Prop :=
  ∀ buf, buf ∈ img.exif ∨ buf ∈ img.xmp ∨ buf ∈ img.icc ∨ buf ∈ img.iptc →
    ∀ header ∈ readerHeaders, ¬ header <:+: buf

/-- libjpeg accepts the markers. -/
structure ImageMetadata.IsAccepted (img : ImageMetadata) : Prop where
  exif : ∀ buf ∈ img.exif, Accepted 6 buf
  xmp : ∀ buf ∈ img.xmp, Accepted 29 buf
  iptc : ∀ buf ∈ img.iptc, Accepted 23 buf

/-- What the reader gives to the constructors. -/
def ImageMetadata.comesBack (img : ImageMetadata) : List (Resource × List UInt8) :=
  img.exif.toList.flatMap exifCalls ++ img.xmp.toList.flatMap xmpCalls ++ img.icc.toList.flatMap iccCalls

theorem writeMarkers_ends (env : Outside) {img : ImageMetadata} (hf : img.HeaderFree)
    (hp : ∀ buf ∈ img.icc, partCount buf ≤ 255) :
    Ends (writeMarkers img)
      (fun mks => img.IsAccepted ∧ ∃ m, readMarkers env mks = .ok m ∧ m.calls = img.comesBack)
      fun _ => ¬ img.IsAccepted := by
  have he : ∀ buf ∈ img.exif, Emits env (writeExif buf) (Accepted 6 buf) (exifCalls buf) := fun buf hb =>
    writeExif_emits (hf buf (.inl hb) xmpHeader (by simp [readerHeaders]))
  have hx : ∀ buf ∈ img.xmp, Emits env (writeXmp buf) (Accepted 29 buf) (xmpCalls buf) := fun buf hb =>
    writeXmp_emits (hf buf (.inr (.inl hb)) exifHeader (by simp [readerHeaders]))
  have hip : ∀ buf ∈ img.iptc, Emits env (writeIptc buf) (Accepted 23 buf) [] := fun buf _ => writeIptc_emits buf
  have hn : img.iptc.toList.flatMap (fun _ => ([] : List (Resource × List UInt8))) = [] := by
    cases img.iptc <;> rfl
  refine (Ends.mono (writeIfAny_emits he) (fun _ => id) fun _ h ha => h ha.exif).bind fun mks₁ h₁ => ?_
  refine (Ends.mono (writeIfAny_emits hx) (fun _ => id) fun _ h ha => h ha.xmp).bind fun mks₂ h₂ => ?_
  refine (Ends.mono (writeIcc_ends env hp) (fun _ => id) fun _ => False.elim).bind fun mks₃ h₃ => ?_
  refine (Ends.mono (writeIfAny_emits hip) (fun _ => id) fun _ h ha => h ha.iptc).map fun mks₄ h₄ => ?_
  refine ⟨⟨h₁.1, h₂.1, h₄.1⟩, ?_⟩
  obtain ⟨s₃, hps, hc, hi⟩ := h₃ _ (collected_nil env _)
  have hl : Passes env mks₄ s₃ s₃ := by
    have h := h₄.2 s₃
    rwa [hn] at h
  have hw := ((h₁.2 ⟨⟨fun _ => none, [], none⟩, none, 0⟩).append ((h₂.2 _).append (hps.append hl))) []
  rw [List.append_nil, walk, finishIcc_parts hp hc] at hw
  refine ⟨_, hw, ?_⟩
  simp [Metadata.calls_constructAll, hi, ImageMetadata.comesBack]

/-- What the constructors of one kind are given. -/
def handed (kind : Resource) (calls : List (Resource × List UInt8)) : List (List UInt8) :=
  (calls.filter fun call => call.1 = kind).map Prod.snd

/-- The metadata that are not too long for a marker. -/
def ImageMetadata.expected (img : ImageMetadata) : Resource → List (List UInt8)
  | .essentials => []
  | .exif => img.exif.toList.filter fun buf => exifHeader.length + buf.length ≤ 65533
  | .xmp => img.xmp.toList.filter fun buf => buf ≠ [] ∧ xmpHeader.length + buf.length ≤ 65533
  | .icc => img.icc.toList
  | .iptc => img.iptc.toList.filter fun buf => iptcHeader.length + 4 + buf.length ≤ 65533

/-- The metadata are written, and come back. -/
def RoundTrips (env : Outside) (img : ImageMetadata) : Prop :=
  ∃ mks m, writeMarkers img = .ok mks ∧ readMarkers env mks = .ok m ∧
    ∀ kind, handed kind m.calls = img.expected kind

/-- What is written and comes back. -/
structure ImageMetadata.IsKept (img : ImageMetadata) : Prop where
  exif : ∀ buf ∈ img.exif, buf.length ≤ 65527 ∨ 65535 < buf.length
  xmp : ∀ buf ∈ img.xmp, buf.length ≤ 65504 ∨ 65535 < buf.length
  icc : ∀ buf ∈ img.icc, buf.length % 65520 + buf.length / 65520 ≤ 65519
  iptc : ∀ buf ∈ img.iptc, 65506 < buf.length ∧ (buf.length ≤ 65510 ∨ 65535 < buf.length)

theorem handed_append (kind : Resource) (a b : List (Resource × List UInt8)) :
    handed kind (a ++ b) = handed kind a ++ handed kind b := by
  simp [handed]

theorem handed_optional (kind k : Resource) (p : List UInt8 → Prop) [DecidablePred p] (any : Option (List UInt8)) :
    handed kind (any.toList.flatMap fun buf => if p buf then [(k, buf)] else []) =
      if k = kind then any.toList.filter p else [] := by
  cases any with
  | none => simp [handed]
  | some buf =>
    rw [Option.toList_some, List.flatMap_singleton]
    by_cases hp : p buf <;> by_cases hk : k = kind <;> simp [handed, hp, hk]

theorem handed_iccCalls (kind : Resource) (icc : Option (List UInt8)) :
    handed kind (icc.toList.flatMap iccCalls) =
      if .icc = kind then icc.toList.map (fun buf => buf.take (65519 * partCount buf)) else [] := by
  cases icc with
  | none => simp [handed]
  | some buf => by_cases hk : Resource.icc = kind <;> simp [handed, iccCalls, hk]

theorem Accepted.iff {header : ℕ} (hh : 2 ≤ header) {buf : List UInt8} (h : Accepted header buf) :
    buf.length ≤ 65535 ↔ header + buf.length ≤ 65533 := by
  rw [Accepted] at h
  omega

theorem handed_comesBack {img : ImageMetadata} (ha : img.IsAccepted) (kind : Resource) :
    handed kind img.comesBack =
      match kind with
      | .icc => img.icc.toList.map fun buf => buf.take (65519 * partCount buf)
      | .iptc => []
      | kind => img.expected kind := by
  have he : img.exif.toList.filter (fun buf => buf.length ≤ 65535) = img.expected .exif :=
    List.filter_congr fun buf hb => by
      rw [decide_eq_decide]
      exact (ha.exif buf (Option.mem_toList.1 hb)).iff (by omega)
  have hx : img.xmp.toList.filter (fun buf => buf ≠ [] ∧ buf.length ≤ 65535) = img.expected .xmp :=
    List.filter_congr fun buf hb => by
      rw [decide_eq_decide]
      exact and_congr_right fun _ => (ha.xmp buf (Option.mem_toList.1 hb)).iff (by omega)
  have ho := handed_optional kind .exif (fun buf => buf.length ≤ 65535) img.exif
  have hox := handed_optional kind .xmp (fun buf => buf ≠ [] ∧ buf.length ≤ 65535) img.xmp
  rw [he] at ho
  rw [hx] at hox
  rw [ImageMetadata.comesBack, handed_append, handed_append, handed_iccCalls]
  unfold exifCalls xmpCalls
  rw [ho, hox]
  cases kind <;> simp [ImageMetadata.expected]

theorem icc_comesBack_iff (icc : Option (List UInt8)) :
    (icc.toList.map fun buf => buf.take (65519 * partCount buf)) = icc.toList ↔
      ∀ buf ∈ icc, buf.length % 65520 + buf.length / 65520 ≤ 65519 := by
  cases icc with
  | none => simp
  | some buf =>
    simp only [Option.toList_some, List.map_singleton, List.cons.injEq, and_true, List.take_eq_self_iff, partCount,
      Option.mem_def, Option.some.injEq, forall_eq']
    omega

theorem iptc_comesBack_iff (iptc : Option (List UInt8)) :
    [] = (iptc.toList.filter fun buf => iptcHeader.length + 4 + buf.length ≤ 65533) ↔
      ∀ buf ∈ iptc, 65506 < buf.length := by
  rw [eq_comm, List.filter_eq_nil_iff]
  refine forall_congr' fun buf => ?_
  rw [Option.mem_toList, decide_eq_true_eq, length_iptcHeader]
  exact imp_congr_right fun _ => by omega

/-- **The metadata that come back from a JPEG file**: for all EXIF data, XMP packets, profiles of up to 255 parts
and IPTC data without a header that the reader looks for, whatever the constructors do. -/
theorem jpeg_round_trip_iff (env : Outside) (img : ImageMetadata) (hfree : img.HeaderFree)
    (hparts : ∀ buf ∈ img.icc, buf.length / 65520 + 1 ≤ 255) : RoundTrips env img ↔ img.IsKept := by
  have he := writeMarkers_ends env hfree hparts
  constructor
  · rintro ⟨mks, m, hmk, hm, hkn⟩
    obtain ⟨ha, m', hm', hc⟩ := he.of_ok hmk
    rw [hm] at hm'
    cases hm'
    rw [hc] at hkn
    have hic := (icc_comesBack_iff img.icc).1 ((handed_comesBack ha .icc).symm.trans (hkn .icc))
    have hi := (iptc_comesBack_iff img.iptc).1 ((handed_comesBack ha .iptc).symm.trans (hkn .iptc))
    refine ⟨fun buf hb => ?_, fun buf hb => ?_, hic, fun buf hb => ⟨hi buf hb, ?_⟩⟩
    · exact (ha.exif buf hb).imp_left fun h => by omega
    · exact (ha.xmp buf hb).imp_left fun h => by omega
    · exact (ha.iptc buf hb).imp_left fun h => by omega
  · intro hk
    have ha : img.IsAccepted :=
      ⟨fun buf hb => (hk.exif buf hb).imp_left fun h => by omega,
        fun buf hb => (hk.xmp buf hb).imp_left fun h => by omega,
        fun buf hb => (hk.iptc buf hb).2.imp_left fun h => by omega⟩
    obtain ⟨mks, hmk, _, m, hm, hc⟩ := (he.mono (fun _ => id) fun _ h => h ha).exists_ok
    refine ⟨mks, m, hmk, hm, fun kind => ?_⟩
    rw [hc, handed_comesBack ha]
    cases kind with
    | icc => exact (icc_comesBack_iff img.icc).2 hk.icc
    | iptc => exact (iptc_comesBack_iff img.iptc).2 fun buf hb => (hk.iptc buf hb).1
    | essentials | exif | xmp => rfl

end

theorem headerFree_of_short {img : ImageMetadata}
    (h : ∀ buf, buf ∈ img.exif ∨ buf ∈ img.xmp ∨ buf ∈ img.icc ∨ buf ∈ img.iptc → buf.length < 6) :
    img.HeaderFree := by
  have hl : ∀ header ∈ readerHeaders, 6 ≤ header.length := by decide
  intro buf hb header hh hi
  exact absurd ((hl header hh).trans hi.length_le) (not_le.2 (h buf hb))

/-- A little of everything but IPTC data. -/
def littleMetadata : ImageMetadata := ⟨some [1, 2], some [3], some [4, 5, 6], none⟩

theorem littleMetadata_headerFree : littleMetadata.HeaderFree := by
  refine headerFree_of_short ?_
  rintro buf (h | h | h | h) <;> cases h <;> decide

theorem littleMetadata_isKept : littleMetadata.IsKept where
  exif buf h := by cases h; decide
  xmp buf h := by cases h; decide
  icc buf h := by cases h; decide
  iptc buf h := by cases h

theorem little_round_trips : littleMetadata.HeaderFree ∧ RoundTrips quiet littleMetadata := by
  refine ⟨littleMetadata_headerFree, ?_⟩
  refine (jpeg_round_trip_iff quiet littleMetadata littleMetadata_headerFree fun buf h => ?_).2 littleMetadata_isKept
  cases h
  decide

def someIptc : ImageMetadata := ⟨none, none, none, some [7]⟩

theorem iptc_is_lost : ¬ RoundTrips quiet someIptc := by
  rintro ⟨mks, m, hmk, hm, hk⟩
  have hf : someIptc.HeaderFree := by
    refine headerFree_of_short ?_
    rintro buf (h | h | h | h) <;> cases h
    decide
  obtain ⟨ha, m', hm', hc⟩ := (writeMarkers_ends quiet hf fun buf hb => by cases hb).of_ok hmk
  rw [hm] at hm'
  cases hm'
  have hi := (handed_comesBack ha .iptc).symm.trans (hc ▸ hk .iptc)
  exact absurd ((iptc_comesBack_iff someIptc.iptc).1 hi [7] rfl) (by decide)

end Sipi.Formats
