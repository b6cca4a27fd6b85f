import Sipi.Image.Channels
import Sipi.Image.Icc

/-!
# The representation of an image

The block of a `SipiImage` has a sample for every channel of every pixel, and the channels are those of the
photometric interpretation and one for each extra sample.

## Honest scope

Images have eight or sixteen bits. The invariant is for gray, RGB, YCbCr, Lab and CMYK.
-/

namespace Sipi.Image

open Sipi.Theory

/-- The channels without the extra samples. -/
def PhotometricInterpretation.channels : PhotometricInterpretation → Option ℕ
  | .miniswhite | .minisblack => some 1
  | .rgb | .ycbcr | PhotometricInterpretation.cielab | .icclab | .itulab => some 3
  | .separated => some 4
  | .palette | .mask | .cfa | .logl | .logluv | .linearraw | .invalid => none

/-! ### What is left when a call throws -/

/-- What `convertToIcc` leaves. -/
def IccFault.left (img : SipiImage) : IccFault → Option SipiImage
  | .thrown _ => some img
  | .overrun => none

/-- What `toBitonal` leaves. -/
def BitonalError.left (img : SipiImage) : BitonalError → Option SipiImage
  | .icc => some img
  | .overrun => none

/-- What `removeChannel` leaves. -/
def ChannelError.left (img : SipiImage) : ChannelError → Option SipiImage
  | .cannotRemove _ _ => some img
  | .outOfRange => some { img with es := img.cleanedExtras }
  | .overrun => none

namespace SipiImage

/-- **The representation invariant.** -/
structure Represented (img : SipiImage) : Prop where
  full : img.Full
  channels : ∃ n ∈ img.photo.channels, img.nc = n + img.es.length

/-- **A call keeps the invariant**, even if it throws. -/
def Keeps {ε : Type} (left : ε → Option SipiImage) (call : Except ε SipiImage) : Prop :=
  Ends call Represented fun e => ∃ img ∈ left e, img.Represented

section
variable {img : SipiImage} {ε : Type} {left : ε → Option SipiImage}

@[simp] theorem keeps_ok {out : SipiImage} : Keeps left (.ok out) ↔ out.Represented := Iff.rfl

theorem Represented.keeps_error (h : img.Represented) {e : ε} (he : left e = some img) : Keeps left (.error e) :=
  ⟨img, he, h⟩

theorem not_keeps {call : Except ε SipiImage} (h : Ends call (fun _ => False) fun e => left e = none) :
    ¬ Keeps left call := by
  intro hk
  cases call with
  | ok out => exact h
  | error e =>
    obtain ⟨img, hi, -⟩ := hk
    have hn : left e = none := h
    simp [hn] at hi

theorem Represented.nc_pos (h : img.Represented) : 0 < img.nc := by
  obtain ⟨n, hn, hnc⟩ := h.channels
  have hps : 0 < n := by
    cases hp : img.photo <;> simp [hp, PhotometricInterpretation.channels] at hn <;> omega
  omega

theorem represented_iff_es {n : ℕ} (hf : img.Full) (hn : img.photo.channels = some n) (hnc : img.nc = n) :
    img.Represented ↔ img.es = [] := by
  constructor
  · rintro ⟨-, m, hm, hn'⟩
    cases hn.symm.trans hm
    exact List.eq_nil_of_length_eq_zero (by omega)
  · intro hes
    exact ⟨hf, n, hn, by simp [hnc, hes]⟩

theorem channels_icc (cms : Cms) {predef : PredefinedProfiles} (hp : predef = .sRGB ∨ predef = .grayD50)
    (old : PhotometricInterpretation) :
    (predef.photo old).channels = some (cms.colorSpace (cms.icc predef).iccProfile).channelsOf := by
  rcases hp with rfl | rfl
  · rw [Cms.icc, cms.colorSpace_sRGB]
    rfl
  · rw [Cms.icc, cms.colorSpace_gray]
    rfl

theorem convertToIcc_keeps_iff (h : img.Represented) (cms : Cms) (icc : Option (Icc cms))
    {predef : PredefinedProfiles} (hp : predef = .sRGB ∨ predef = .grayD50) (newBps : ℕ) :
    Keeps (IccFault.left img) (img.convertToIcc cms icc (cms.icc predef) newBps) ↔
      img.es = [] ∨ ¬ img.Converts cms icc (cms.icc predef) newBps := by
  by_cases hc : img.Converts cms icc (cms.icc predef) newBps
  · obtain ⟨bps, outbuf, ho, hs⟩ := convertToIcc_of_converts h.full hc
    rw [ho, keeps_ok]
    refine Iff.trans (represented_iff_es hs (channels_icc cms hp img.photo) rfl) ?_
    simp [hc]
  · obtain ⟨e, he⟩ := convertToIcc_of_not_converts hc
    rw [he]
    exact iff_of_true (h.keeps_error rfl) (Or.inr hc)

theorem Represented.withBlock (h : img.Represented) {pixels : Buffer ℕ} (hs : pixels.size = img.pixels.size)
    (bps : Depth) : { img with bps := bps, pixels := pixels }.Represented :=
  ⟨hs.trans h.full, h.channels⟩

theorem to8bps_keeps (h : img.Represented) : Keeps (BitonalError.left img) img.to8bps := by
  refine (to8bps_block h.full).mono (fun out ho => ?_) fun _ => False.elim
  obtain ⟨pixels, rfl, hs⟩ := ho
  exact h.withBlock hs .eight

theorem dithered_block (hd : img.nx * img.ny ≤ img.data.size) :
    Ends img.dithered (fun out => ∃ pixels, out = { img with pixels := pixels } ∧ pixels.size = img.pixels.size)
      fun _ => False := by
  refine (copyOut_ends hd).bind fun outbuf hs => (dither_ends hs).bind fun outbuf ht => ?_
  refine (copyBack_ends ht.size hd).bind fun bytes hb => ?_
  have hb' := hb.size
  cases hbp : img.bps with
  | eight =>
    rw [data, hbp] at hb'
    exact ⟨bytes, by rw [withData, hbp], hb'⟩
  | sixteen =>
    rw [data, hbp] at hb'
    refine ⟨_, by rw [withData, hbp], ?_⟩
    dsimp only at hb' ⊢
    omega

theorem toBitonal_block (gray : SipiImage → Option (ℕ → UInt8)) (hg : img.IsGray) (hf : img.Full)
    (hnc : 0 < img.nc) :
    Ends (img.toBitonal gray)
      (fun out => ∃ pixels, out = { img with pixels := pixels } ∧ pixels.size = img.pixels.size) fun _ => False := by
  have hd := hf.le_data hnc
  rw [toBitonal, if_pos hg, ok_bind]
  refine (needsDither_ends hd).bind fun doit _ => ?_
  split_ifs
  · exact dithered_block hd
  · exact ⟨img.pixels, rfl, rfl⟩

theorem toBitonal_keeps_iff (h : img.Represented) (cms : Cms) (icc : Option (Icc cms)) :
    Keeps (BitonalError.left img) (img.toBitonal (grayLevels cms icc)) ↔
      img.IsGray ∨ img.es = [] ∨ ¬ img.Converts cms icc (cms.icc .grayD50) 8 := by
  have hn : grayLevels cms icc img = none ↔ _ := grayLevels_eq_none_iff h.full
  by_cases hg : img.IsGray
  · refine iff_of_true ?_ (Or.inl hg)
    refine (toBitonal_block _ hg h.full h.nc_pos).mono (fun out ho => ?_) fun _ => False.elim
    obtain ⟨pixels, rfl, hs⟩ := ho
    exact h.withBlock hs img.bps
  · rw [or_iff_right hg, ← hn]
    cases hl : grayLevels cms icc img with
    | none =>
      rw [toBitonal_of_none hg hl]
      exact iff_of_true (h.keeps_error rfl) (Or.inr rfl)
    | some level =>
      have hg' : (img.withGray level).IsGray := Or.inl rfl
      obtain ⟨out, ho, pixels, rfl, hs⟩ := (toBitonal_block (grayLevels cms icc) hg' rfl Nat.one_pos).exists_ok
      rw [toBitonal_of_some hg hl, ho, keeps_ok]
      refine Iff.trans (represented_iff_es (n := 1) hs rfl rfl) ?_
      simp [withGray]

theorem convertYCC2RGB_short (hf : img.Full) (hnc : img.nc < 3) (hx : 0 < img.nx) (hy : 0 < img.ny) :
    Ends img.convertYCC2RGB (fun _ => False) fun _ => True := by
  have hpx : 0 < img.nx * img.ny := Nat.mul_pos hx hy
  refine Ends.map (Q := fun _ => False) ?_ fun _ => False.elim
  refine (forPixels_ends (fun p (_ : Buffer ℕ) => p < img.nx * img.ny) hpx fun x hx y hy out hp => ?_).imp
    fun _ he => absurd he (lt_irrefl _)
  have hr : Ends (img.pixels.fetch ImageError.overrun (index img.nx img.nc x y 2))
      (fun _ => index img.nx img.nc x y 2 < img.pixels.size) fun _ => True := by
    unfold Buffer.fetch
    split_ifs with hlt
    · exact hlt
    · trivial
  unfold yccPixel
  refine hr.bind fun v hlt => (ends_trivial _).imp fun _ _ => ?_
  rw [hf, index] at hlt
  have hc : img.nc = 0 ∨ img.nc = 1 ∨ img.nc = 2 := by omega
  rcases hc with hnc | hnc | hnc <;> rw [hnc] at hlt <;> omega

theorem convertYCC2RGB_keeps_iff (h : img.Represented) :
    Keeps (fun _ => none) img.convertYCC2RGB ↔ (img.bps = .eight ∧ 3 ≤ img.nc) ∨ img.nx = 0 ∨ img.ny = 0 := by
  constructor
  · intro hk
    by_contra hc
    obtain ⟨hbp, hp⟩ := not_or.mp hc
    refine not_keeps ?_ hk
    rcases Nat.lt_or_ge img.nc 3 with hnc | hnc
    · exact (convertYCC2RGB_short h.full hnc (by omega) (by omega)).mono (fun _ => id) fun _ _ => rfl
    · refine (convertYCC2RGB_overruns ?_ hnc (by omega) (by omega)).mono (fun _ => id) fun _ _ => rfl
      exact fun hb => hbp ⟨hb, hnc⟩
  · intro hc
    obtain ⟨outbuf, ho, hs, -⟩ := yccStays_of_eight h.full hc
    rw [ho]
    exact h.withBlock (hs.trans h.full.symm) img.bps

/-! ### Removing a channel -/

/-- A loop that copies every channel but one. -/
def Purges (img : SipiImage) (channel newNc : ℕ)
    (body : ℕ → ℕ → ℕ → Buffer ℕ → Except ChannelError (Buffer ℕ)) : Prop :=
  ∀ x < img.nx, ∀ y < img.ny, ∀ k < img.nc, ∃ v, ∀ changed, body x y k changed =
    if k = channel then .ok changed else changed.put .overrun (index img.nx newNc x y k) v

theorem exists_purges (hfl : img.Full) {channel : ℕ} (hc : channel < img.nc) (newNc : ℕ) (gray : Bool) :
    ∃ body, Purges img channel newNc body ∧
      (if gray then img.purgeChannelPixelsWithGrayAlpha else img.purgeChannelPixels) channel newNc =
        forSamples img.nx img.ny img.nc body := by
  have hf : ∀ x < img.nx, ∀ y < img.ny, ∀ k < img.nc,
      img.pixels.fetch ChannelError.overrun (index img.nx img.nc x y k) =
        .ok (img.pixels.get (index img.nx img.nc x y k)) := by
    intro x hx y hy k hk
    exact Buffer.fetch_of_lt _ (by rw [hfl]; exact index_lt hx hy hk)
  cases gray with
  | true =>
    refine ⟨_, fun x hx y hy k hk => ⟨if img.pixels.get (index img.nx img.nc x y channel) = 0 then 128
      else img.pixels.get (index img.nx img.nc x y k), fun changed => ?_⟩, rfl⟩
    rw [hf x hx y hy channel hc, ok_bind, hf x hx y hy k hk]
    split_ifs <;> rfl
  | false =>
    refine ⟨_, fun x hx y hy k hk => ⟨img.pixels.get (index img.nx img.nc x y k), fun changed => ?_⟩, rfl⟩
    rw [hf x hx y hy k hk, ok_bind]

section
variable {channel newNc : ℕ} {body : ℕ → ℕ → ℕ → Buffer ℕ → Except ChannelError (Buffer ℕ)}

theorem Purges.ends (h : Purges img channel newNc body) (hnc : img.nc = newNc + 1)
    (hl : channel = newNc ∨ img.nx = 0 ∨ img.ny = 0) {changed : Buffer ℕ}
    (hc : changed.size = img.nx * img.ny * newNc) :
    Ends (forSamples img.nx img.ny img.nc body changed) (fun out => out.size = img.nx * img.ny * newNc)
      fun _ => False := by
  refine forSamples_ends (fun _ (out : Buffer ℕ) => out.size = img.nx * img.ny * newNc) hc
    fun x hx y hy k hk out ho => ?_
  obtain ⟨v, hv⟩ := h x hx y hy k hk
  rw [hv]
  split_ifs with hch
  · exact ho
  · rw [Buffer.put_of_lt _ (by rw [ho]; exact index_lt hx hy (by omega))]
    exact ho

theorem Purges.fails (h : Purges img channel newNc body) (hnc : img.nc = newNc + 1) (hc : channel < newNc)
    (hx : 0 < img.nx) (hy : 0 < img.ny) {changed : Buffer ℕ} (hch : changed.size = newNc * (img.nx * img.ny)) :
    Ends (forSamples img.nx img.ny img.nc body changed) (fun _ => False) (· = .overrun) := by
  have hp : 0 < img.nx * img.ny * img.nc := Nat.mul_pos (Nat.mul_pos hx hy) (by omega)
  refine (forSamples_ends (fun q (out : Buffer ℕ) => out.size = newNc * (img.nx * img.ny) ∧ q < img.nx * img.ny * img.nc)
    ⟨hch, hp⟩ fun x hx y hy k hk out ho => ?_).imp fun _ he => absurd he.2 (lt_irrefl _)
  obtain ⟨v, hv⟩ := h x hx y hy k hk
  rw [hv]
  split_ifs with hs
  · exact ⟨ho.1, index_lt hx hy (by omega : k + 1 < img.nc)⟩
  · refine Buffer.put_ends (fun hr => ⟨ho.1, ?_⟩) fun _ => rfl
    rcases Nat.lt_or_ge k newNc with hlt | hge
    · exact index_lt hx hy (by omega : k + 1 < img.nc)
    · obtain rfl : k = newNc := by omega
      rw [ho.1, index, ← Nat.mul_succ] at hr
      rw [index, hnc, Nat.add_assoc, ← Nat.mul_succ, Nat.mul_comm (img.nx * img.ny)]
      exact Nat.mul_lt_mul_of_pos_left (Nat.lt_of_mul_lt_mul_left hr) (Nat.succ_pos _)

end

/-- The channel is one of the extra samples. -/
def IsExtra (img : SipiImage) (channel : ℕ) : Prop :=
  ∃ n ∈ img.photo.channels, n ≤ channel ∧ channel < img.nc

theorem contentChannels_of_channels {photo : PhotometricInterpretation} {n : ℕ} (hn : photo.channels = some n) :
    (n = 1 ∧ contentChannels photo = 3 ∧ photo ≠ .separated) ∨ n = contentChannels photo := by
  cases photo <;> simp_all [PhotometricInterpretation.channels, contentChannels]

theorem removeChannel_of_found (hf : img.Full) {channel : ℕ} (force : Bool) (hr : img.Removable channel)
    {extra : ExtraSamples} (he : img.extraOf channel = some extra) :
    ∃ body, Purges img channel (img.nc - 1) body ∧
      img.removeChannel channel force =
        (forSamples img.nx img.ny img.nc body (.const ((img.nc - 1) * img.nx * img.ny) 0)).map fun changed =>
          { img with
            nc := img.nc - 1
            es := img.cleanedExtras.eraseIdx (channel - contentChannels img.photo)
            pixels := changed } := by
  have hc : channel < img.nc := by
    obtain ⟨hrn, -⟩ := hr
    omega
  cases hbp : img.bps with
  | eight =>
    obtain ⟨body, hb, hl⟩ :=
      exists_purges hf hc (img.nc - 1) (force && extra = .assocAlpha && img.photo = .rgb)
    refine ⟨body, hb, ?_⟩
    rw [removeChannel, if_pos hr, he]
    simp only [hbp, hl]
  | sixteen =>
    obtain ⟨body, hb, hl⟩ := exists_purges hf hc (img.nc - 1) false
    refine ⟨body, hb, ?_⟩
    rw [removeChannel, if_pos hr, he]
    rw [if_neg Bool.false_ne_true] at hl
    simp only [hbp, hl]

theorem removeChannel_grayAlpha (hnc : img.nc = 2) (hc : contentChannels img.photo = 3) (force : Bool) :
    img.removeChannel 1 force = .error .outOfRange := by
  have hr : img.Removable 1 := ⟨by omega, fun _ => ⟨by omega, by omega⟩⟩
  have he : img.extraOf 1 = none := if_pos (by omega)
  rw [removeChannel, if_pos hr, he]

theorem removeChannel_found_keeps_iff (h : img.Represented) {channel : ℕ} (force : Bool) (hf : 4 ≤ img.nc)
    (hcm : img.nc = 4 → img.photo ≠ .separated) (hco : contentChannels img.photo ≤ channel)
    (hl : channel - contentChannels img.photo < img.es.length) (hC : channel < img.nc) :
    Keeps (ChannelError.left img) (img.removeChannel channel force) ↔
      channel + 1 = img.nc ∨ img.nx = 0 ∨ img.ny = 0 := by
  have hr : img.Removable channel := ⟨by omega, fun _ => ⟨by omega, fun hbt => hcm hbt.1 hbt.2⟩⟩
  have hc : img.cleanedExtras = img.es := if_neg (by omega)
  have het : img.extraOf channel = some img.es[channel - contentChannels img.photo] := by
    rw [extraOf, if_neg (by omega), hc]
    exact List.getElem?_eq_getElem hl
  obtain ⟨body, hb, hrm⟩ := removeChannel_of_found h.full force hr het
  have hnc : img.nc = img.nc - 1 + 1 := by omega
  rw [hrm]
  constructor
  · intro hk
    by_contra hcn
    refine not_keeps (Ends.map (Q := fun _ => False) ?_ fun _ => False.elim) hk
    refine (hb.fails hnc (by omega) (by omega) (by omega) (Nat.mul_assoc ..)).mono (fun _ => id) fun e he => ?_
    rw [he]
    rfl
  · intro hcn
    have hs : (Buffer.const ((img.nc - 1) * img.nx * img.ny) 0).size = img.nx * img.ny * (img.nc - 1) := by
      rw [Buffer.const_size]
      ring
    have hen := hb.ends hnc (by omega) hs
    refine (hen.mono (fun _ => id) fun _ => False.elim).map fun changed hch => ?_
    obtain ⟨n, hn, hcl⟩ := h.channels
    refine ⟨hch, n, hn, ?_⟩
    show img.nc - 1 = n + (img.cleanedExtras.eraseIdx (channel - contentChannels img.photo)).length
    rw [hc, List.length_eraseIdx_of_lt hl]
    omega

theorem removeChannel_keeps_iff (h : img.Represented) {channel : ℕ} (he : img.IsExtra channel) (force : Bool) :
    Keeps (ChannelError.left img) (img.removeChannel channel force) ↔
      img.nc ≠ 2 ∧ (channel + 1 = img.nc ∨ img.nc ≤ 3 ∨ channel < 3 ∨ img.nx = 0 ∨ img.ny = 0) := by
  obtain ⟨n, hn, hle, hlt⟩ := he
  obtain ⟨m, hm, hnc⟩ := h.channels
  cases hn.symm.trans hm
  have hes : img.es ≠ [] := List.ne_nil_of_length_pos (by omega)
  have hc := contentChannels_of_channels hn
  have ht := three_le_contentChannels img.photo
  rcases Nat.lt_or_ge img.nc 4 with hfw | hf
  · -- only a gray image has so few channels and an extra sample
    obtain ⟨rfl, hc, -⟩ : n = 1 ∧ contentChannels img.photo = 3 ∧ img.photo ≠ .separated :=
      hc.resolve_right (by omega)
    have hcs : img.nc = 2 ∧ channel = 1 ∨ img.nc = 3 := by omega
    rcases hcs with ⟨htw, rfl⟩ | hrf
    · refine iff_of_false ?_ fun hcn => hcn.1 htw
      rw [removeChannel_grayAlpha htw hc force]
      rintro ⟨left, hl, -, m, hm, hn'⟩
      obtain rfl : { img with es := img.cleanedExtras } = left := Option.some.inj hl
      cases hn.symm.trans hm
      have hnn : img.cleanedExtras = [] := if_pos (by omega)
      rw [hnn, htw] at hn'
      cases hn'
    · refine iff_of_true ?_ ⟨by omega, by omega⟩
      have hr : ¬ img.Removable channel := fun hr => (hr.2 hes).1 hrf
      rw [removeChannel, if_neg hr]
      exact h.keeps_error rfl
  · by_cases hs : channel < contentChannels img.photo
    · -- the list of a gray image is asked for a sample in front of its first one
      obtain ⟨rfl, hc, hcm⟩ : n = 1 ∧ contentChannels img.photo = 3 ∧ img.photo ≠ .separated :=
        hc.resolve_right (by omega)
      refine iff_of_true ?_ ⟨by omega, by omega⟩
      have hr : img.Removable channel := ⟨by omega, fun _ => ⟨by omega, fun hb => hcm hb.2⟩⟩
      have hnn : img.extraOf channel = none := if_pos hs
      have hcl : img.cleanedExtras = img.es := if_neg (by omega)
      rw [removeChannel, if_pos hr, hnn]
      refine h.keeps_error ?_
      rw [ChannelError.left, hcl]
    · have hcm : img.nc = 4 → img.photo ≠ .separated := by
        intro hn4 hsp
        have hc4 : contentChannels img.photo = 4 := if_pos hsp
        rcases hc with ⟨-, -, hg⟩ | hc
        · exact hg hsp
        · omega
      rw [removeChannel_found_keeps_iff h force hf hcm (by omega) (by omega) hlt]
      omega

end

end SipiImage

end Sipi.Image
