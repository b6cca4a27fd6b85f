import Sipi.Image.Raster

/-!
# Channels

`SipiImage::removeChannel` of `src/SipiImage.cpp` copies every channel but one into a smaller block,
`removeExtraSamples` calls it for one channel after the other, and `convertYCC2RGB` turns the first three channels
into red, green and blue.

## Honest scope

The arithmetic of the conversion is exact. An image has fewer than `2^32` channels.
-/

namespace Sipi.Image

open Sipi.Theory

/-! ### Removing a channel -/

/-- What goes wrong when a channel is removed. -/
inductive ChannelError where
  | cannotRemove (nc channel : ℕ)
  | outOfRange
  | overrun
  deriving DecidableEq

/-- The text of the error. -/
def ChannelError.message : ChannelError → String
  | .cannotRemove nc channel =>
    "Cannot remove component: nc=" ++ toString nc ++ " chan=" ++ toString channel
  | .outOfRange => "vector"
  | .overrun => ""

/-- The channels that are not extra samples. -/
def contentChannels (photo : PhotometricInterpretation) : ℕ := if photo = .separated then 4 else 3

namespace SipiImage

/-- `purge_channel_pixels`. -/
def purgeChannelPixels (img : SipiImage) (channel newNc : ℕ) (changed : Buffer ℕ) : Except ChannelError (Buffer ℕ) :=
  forSamples img.nx img.ny img.nc (fun i j k changed =>
    if k = channel then .ok changed
    else do
      let v ← img.pixels.fetch .overrun (index img.nx img.nc i j k)
      changed.put .overrun (index img.nx newNc i j k) v) changed

/-- The same, with gray for a zero. -/
def purgeChannelPixelsWithGrayAlpha (img : SipiImage) (channel newNc : ℕ) (changed : Buffer ℕ) :
    Except ChannelError (Buffer ℕ) :=
  forSamples img.nx img.ny img.nc (fun i j k changed =>
    if k = channel then .ok changed
    else do
      let alpha ← img.pixels.fetch .overrun (index img.nx img.nc i j channel)
      let v ← if alpha = 0 then .ok 128 else img.pixels.fetch .overrun (index img.nx img.nc i j k)
      changed.put .overrun (index img.nx newNc i j k) v) changed

/-- The tests at the start of `removeChannel`. -/
def Removable (img : SipiImage) (channel : ℕ) : Prop :=
  ¬ (img.nc = 1 ∨ img.nc ≤ channel) ∧
    (img.es ≠ [] → img.nc ≠ 3 ∧ ¬ (img.nc = 4 ∧ img.photo = .separated))

instance (img : SipiImage) (channel : ℕ) : Decidable (img.Removable channel) := inferInstanceAs (Decidable (_ ∧ _))

/-- The extra samples after the tests. -/
def cleanedExtras (img : SipiImage) : List ExtraSamples := if img.nc < 3 then [] else img.es

/-- The extra sample that a channel has. -/
def extraOf (img : SipiImage) (channel : ℕ) : Option ExtraSamples :=
  if channel < contentChannels img.photo then none
  else img.cleanedExtras[channel - contentChannels img.photo]?

/-- `SipiImage::removeChannel`. -/
def removeChannel (channel : ℕ) (forceGrayAlpha : Bool) (img : SipiImage) : Except ChannelError SipiImage :=
  if img.Removable channel then
    match img.extraOf channel with
    | none => .error .outOfRange
    | some extra =>
      let newNc := img.nc - 1
      let forceGrayValues := forceGrayAlpha && extra = .assocAlpha && img.photo = .rgb
      let purge := match img.bps with
        | .eight => if forceGrayValues then img.purgeChannelPixelsWithGrayAlpha else img.purgeChannelPixels
        | .sixteen => img.purgeChannelPixels
      (purge channel newNc (.const (newNc * img.nx * img.ny) 0)).map fun changed =>
        { img with
          nc := newNc
          es := img.cleanedExtras.eraseIdx (channel - contentChannels img.photo)
          pixels := changed }
  else .error (.cannotRemove img.nc channel)

/-- `SipiImage::removeExtraSamples`. -/
def removeExtraSamples (forceGrayAlpha : Bool) (img : SipiImage) : Except ChannelError SipiImage :=
  forRange (fun i img => img.removeChannel i forceGrayAlpha) img.es.length (contentChannels img.photo) img

/-! ### What is left of an image -/

/-- **The content is kept**, the extras are gone. -/
def KeepsContent (img : SipiImage) : Prop :=
  ∃ out, img.removeExtraSamples false = .ok out ∧ out.nx = img.nx ∧ out.ny = img.ny ∧
    out.nc = contentChannels img.photo ∧ out.es = [] ∧ out.Full ∧
    ∀ x < img.nx, ∀ y < img.ny, ∀ k < contentChannels img.photo,
      out.pixels.get (index img.nx (contentChannels img.photo) x y k) = img.pixels.get (index img.nx img.nc x y k)

theorem purgeChannelPixels_last {img : SipiImage} (hf : img.Full) {nc : ℕ} (hnc : img.nc = nc + 1) :
    Ends (img.purgeChannelPixels nc nc (.const (nc * img.nx * img.ny) 0))
      (Filled img.nx img.ny nc (fun x y k v => v = img.pixels.get (index img.nx img.nc x y k))
        (img.nx * img.ny * nc)) fun _ => False := by
  set Q : ℕ → ℕ → ℕ → ℕ → Prop := fun x y k v => v = img.pixels.get (index img.nx img.nc x y k)
  have hs : Filled img.nx img.ny nc Q (nc * 0) (.const (nc * img.nx * img.ny) 0) := by
    rw [show nc * img.nx * img.ny = img.nx * img.ny * nc by ring]
    exact filled_zero img.nx img.ny nc Q 0
  rw [purgeChannelPixels, forSamples_eq, Nat.mul_comm (img.nx * img.ny) nc]
  refine forPixels_ends (fun p => Filled img.nx img.ny nc Q (nc * p)) hs fun x hx y hy out ho => ?_
  -- the last round over the channels is the one that is left out
  have hr : ∀ k changed, k < img.nc → Filled img.nx img.ny nc Q (index img.nx nc x y (min k nc)) changed →
      Ends (if k = nc then .ok changed else do
        let v ← img.pixels.fetch ChannelError.overrun (index img.nx img.nc x y k)
        changed.put .overrun (index img.nx nc x y k) v)
        (Filled img.nx img.ny nc Q (index img.nx nc x y (min (k + 1) nc))) fun _ => False := by
    intro k changed hk hc
    by_cases hl : k = nc
    · rw [if_pos hl]
      simpa [hl] using hc
    · have hlt : k < nc := by omega
      rw [if_neg hl, Buffer.fetch_of_lt _ (by rw [hf]; exact index_lt hx hy hk), ok_bind]
      rw [Nat.min_eq_left hlt.le] at hc
      rw [Nat.min_eq_left (Nat.succ_le_of_lt hlt)]
      exact hc.put hx hy hlt _ rfl
  have hch := forCount_ends (n := img.nc) (fun k => Filled img.nx img.ny nc Q (index img.nx nc x y (min k nc)))
    (by simpa [index] using ho) hr
  simpa [index, hnc, Nat.mul_add] using hch

theorem removeChannel_ends (channel : ℕ) (force : Bool) (img : SipiImage) :
    Ends (img.removeChannel channel force) (fun out => channel < img.nc ∧ out.nc + 1 = img.nc) fun _ => True := by
  unfold removeChannel
  split_ifs with hr
  · split
    · trivial
    · refine (ends_trivial _).map fun changed _ => ?_
      obtain ⟨hnc, -⟩ := hr
      show channel < img.nc ∧ img.nc - 1 + 1 = img.nc
      omega
  · trivial

theorem removeExtraSamples_fails {img : SipiImage} (hnc : img.nc = contentChannels img.photo + img.es.length)
    (hes : 2 ≤ img.es.length) (force : Bool) :
    Ends (img.removeExtraSamples force) (fun _ => False) fun _ => True := by
  set content := contentChannels img.photo
  set n := img.es.length
  refine (forRange_ends (fun i out => out.nc + i = 2 * content + n ∧ (content < i → 2 * i < 2 * content + n + 2))
    ⟨by omega, fun hlt => absurd hlt (lt_irrefl _)⟩ fun i out hlo hi hin => ?_).imp fun out he => ?_
  · refine (removeChannel_ends i force out).imp fun out' ho => ?_
    omega
  · have hl := he.2 (by omega)
    omega

theorem three_le_contentChannels (photo : PhotometricInterpretation) : 3 ≤ contentChannels photo := by
  unfold contentChannels
  split_ifs <;> omega

theorem removable_extra {img : SipiImage} (hnc : img.nc = contentChannels img.photo + 1) :
    img.Removable (contentChannels img.photo) := by
  have ht := three_le_contentChannels img.photo
  refine ⟨by omega, fun _ => ⟨by omega, ?_⟩⟩
  rintro ⟨hf, hc⟩
  rw [contentChannels, if_pos hc] at hnc
  omega

theorem removeChannel_extra {img : SipiImage} (hfl : img.Full) {extra : ExtraSamples} (hes : img.es = [extra])
    (hnc : img.nc = contentChannels img.photo + 1) :
    ∃ changed, img.removeChannel (contentChannels img.photo) false =
        .ok { img with nc := contentChannels img.photo, es := [], pixels := changed } ∧
      Filled img.nx img.ny (contentChannels img.photo)
        (fun x y k v => v = img.pixels.get (index img.nx img.nc x y k))
        (img.nx * img.ny * contentChannels img.photo) changed := by
  obtain ⟨changed, hch, hf⟩ := (purgeChannelPixels_last hfl hnc).exists_ok
  have hc : img.cleanedExtras = [extra] := by
    have ht := three_le_contentChannels img.photo
    rw [cleanedExtras, if_neg (by omega), hes]
  have he : img.extraOf (contentChannels img.photo) = some extra := by
    rw [extraOf, if_neg (lt_irrefl _), hc, Nat.sub_self]
    rfl
  have hn : img.nc - 1 = contentChannels img.photo := by omega
  have hp : (match img.bps with
      | .eight => if (false && extra = .assocAlpha && img.photo = .rgb) then img.purgeChannelPixelsWithGrayAlpha
        else img.purgeChannelPixels
      | .sixteen => img.purgeChannelPixels) = img.purgeChannelPixels := by
    cases img.bps <;> rfl
  refine ⟨changed, ?_, hf⟩
  rw [removeChannel, if_pos (removable_extra hnc), he]
  simp only [hn, hc, Nat.sub_self]
  rw [hp, hch]
  rfl

/-- **Extra samples are removed as they should be exactly if there is one.** -/
theorem keepsContent_iff (img : SipiImage) (hfull : img.Full) (hes : img.es ≠ [])
    (hnc : img.nc = contentChannels img.photo + img.es.length) : img.KeepsContent ↔ img.es.length = 1 := by
  have hp := List.length_pos_of_ne_nil hes
  constructor
  · rintro ⟨out, hot, -⟩
    by_contra hm
    exact (removeExtraSamples_fails hnc (by omega) false).of_ok hot
  · intro ho
    obtain ⟨extra, he⟩ := List.length_eq_one_iff.mp ho
    rw [ho] at hnc
    obtain ⟨changed, hr, hf⟩ := removeChannel_extra hfull he hnc
    refine ⟨{ img with nc := contentChannels img.photo, es := [], pixels := changed }, ?_, rfl, rfl, rfl, rfl,
      hf.size, fun x hx y hy k hk => hf.get hx hy hk⟩
    -- the loop makes one round
    rw [removeExtraSamples, ho]
    show (img.removeChannel (contentChannels img.photo) false >>= fun out => .ok out) = _
    rw [hr]
    rfl

/-- One coloured pixel, with extra samples. -/
def colored (es : List ExtraSamples) : SipiImage where
  nx := 1
  ny := 1
  nc := 3 + es.length
  bps := .eight
  photo := .rgb
  es := es
  orientation := .topLeft
  exif := none
  pixels := ⟨3 + es.length, id⟩

theorem two_extras_overrun :
    (colored [.unassAlpha, .unspecified]).removeExtraSamples false = .error .overrun ∧
      ({ colored [.unassAlpha, .unspecified] with ny := 0 }).removeExtraSamples false = .error (.cannotRemove 4 4) ∧
      ¬ (colored [.unassAlpha, .unspecified]).KeepsContent := by
  have ho : (colored [.unassAlpha, .unspecified]).removeExtraSamples false = .error .overrun := rfl
  refine ⟨ho, rfl, ?_⟩
  rintro ⟨out, hot, -⟩
  cases ho.symm.trans hot

theorem keepsContent_alpha : (colored [.assocAlpha]).KeepsContent :=
  (keepsContent_iff (colored [.assocAlpha]) rfl (List.cons_ne_nil _ _) rfl).mpr rfl

/-! ### From YCC to RGB -/

/-- Red, green and blue of a pixel, each as an `int`. -/
def rgbOf (y cb cr : ℕ) : ℤ × ℤ × ℤ :=
  (trunc (y + 1.40200 * (cr - 0x80)), trunc (y - 0.34414 * (cb - 0x80) - 0.71414 * (cr - 0x80)),
    trunc (y + 1.77200 * (cb - 0x80)))

/-- `std::max(0, std::min(top, v))`. -/
def clampTo (top : ℕ) (v : ℤ) : ℕ := (max 0 (min (top : ℤ) v)).toNat

/-- The loop over the channels that are copied. -/
def yccCopy (img : SipiImage) (i j : ℕ) (outbuf : Buffer ℕ) : Except ImageError (Buffer ℕ) :=
  forRange (fun k outbuf => do
    let v ← img.pixels.fetch .overrun (index img.nx img.nc i j k)
    outbuf.put .overrun (index img.nx img.nc i j k) v) (img.nc - 3) 3 outbuf

/-- The body of the loop over the pixels. -/
def yccPixel (img : SipiImage) (i j : ℕ) (outbuf : Buffer ℕ) : Except ImageError (Buffer ℕ) := do
  let y ← img.pixels.fetch .overrun (index img.nx img.nc i j 2)
  let cb ← img.pixels.fetch .overrun (index img.nx img.nc i j 1)
  let cr ← img.pixels.fetch .overrun (index img.nx img.nc i j 0)
  let rgb := rgbOf y cb cr
  let outbuf ← outbuf.put .overrun (index img.nx img.nc i j 0) (clampTo img.bps.fullScale rgb.1)
  let outbuf ← outbuf.put .overrun (index img.nx img.nc i j 1) (clampTo img.bps.fullScale rgb.2.1)
  let outbuf ← outbuf.put .overrun (index img.nx img.nc i j 2) (clampTo img.bps.fullScale rgb.2.2)
  img.yccCopy i j outbuf

/-- The channels of the new block. -/
def yccChannels (img : SipiImage) : ℕ :=
  match img.bps with
  | .eight => img.nc
  | .sixteen => img.nc - 1

/-- `SipiImage::convertYCC2RGB`. -/
def convertYCC2RGB (img : SipiImage) : Except ImageError SipiImage :=
  (forPixels img.nx img.ny img.yccPixel (.const (img.yccChannels * img.nx * img.ny) 0)).map fun outbuf =>
    { img with pixels := outbuf }

/-- **The conversion stays in its block.** -/
def YccStays (img : SipiImage) : Prop :=
  ∃ outbuf, img.convertYCC2RGB = .ok { img with pixels := outbuf } ∧ outbuf.size = img.nx * img.ny * img.nc ∧
    ∀ x < img.nx, ∀ y < img.ny, ∀ k < img.nc, 3 ≤ k →
      outbuf.get (index img.nx img.nc x y k) = img.pixels.get (index img.nx img.nc x y k)

section
variable {img : SipiImage}

/-- What the loop makes of a sample. -/
def YccSample (img : SipiImage) (x y k v : ℕ) : Prop := 3 ≤ k → v = img.pixels.get (index img.nx img.nc x y k)

theorem yccPixel_fills (hfl : img.Full) (hnc : 3 ≤ img.nc) {x y : ℕ} (hx : x < img.nx) (hy : y < img.ny)
    {outbuf : Buffer ℕ} (ho : Filled img.nx img.ny img.nc (YccSample img) (index img.nx img.nc x y 0) outbuf) :
    Ends (img.yccPixel x y outbuf) (Filled img.nx img.ny img.nc (YccSample img) (index img.nx img.nc x y img.nc))
      fun _ => False := by
  have hf : ∀ k < img.nc, img.pixels.fetch ImageError.overrun (index img.nx img.nc x y k) =
      .ok (img.pixels.get (index img.nx img.nc x y k)) := by
    intro k hk
    exact Buffer.fetch_of_lt _ (by rw [hfl]; exact index_lt hx hy hk)
  have hc : ∀ {k : ℕ}, k < 3 → ∀ {v : ℕ} {out : Buffer ℕ},
      Filled img.nx img.ny img.nc (YccSample img) (index img.nx img.nc x y k) out →
      Ends (out.put ImageError.overrun (index img.nx img.nc x y k) v)
        (Filled img.nx img.ny img.nc (YccSample img) (index img.nx img.nc x y (k + 1))) fun _ => False := by
    intro k hk v out ho
    exact ho.put hx hy (by omega) _ fun h3 => absurd hk (by omega)
  unfold yccPixel
  rw [hf 2 (by omega), hf 1 (by omega), hf 0 (by omega)]
  simp only [ok_bind]
  refine (hc (by decide) ho).bind fun out ho => (hc (by decide) ho).bind fun out ho =>
    (hc (by decide) ho).bind fun out ho => ?_
  have hcp : Ends (img.yccCopy x y out)
      (Filled img.nx img.ny img.nc (YccSample img) (index img.nx img.nc x y (3 + (img.nc - 3)))) fun _ => False := by
    refine forRange_ends (fun k => Filled img.nx img.ny img.nc (YccSample img) (index img.nx img.nc x y k)) ho
      fun k out hlo hk ho => ?_
    rw [hf k (by omega), ok_bind]
    exact ho.put hx hy (by omega) _ fun _ => rfl
  rwa [show 3 + (img.nc - 3) = img.nc by omega] at hcp

theorem yccPixel_room (hnc : 3 ≤ img.nc) (x y : ℕ) (outbuf : Buffer ℕ) :
    Ends (img.yccPixel x y outbuf)
      (fun out => out.size = outbuf.size ∧ index img.nx img.nc x y (img.nc - 1) < outbuf.size) fun _ => True := by
  set n := outbuf.size with hn
  have hp : ∀ {k v : ℕ} {out : Buffer ℕ}, out.size = n →
      Ends (out.put ImageError.overrun (index img.nx img.nc x y k) v)
        (fun out => out.size = n ∧ index img.nx img.nc x y k < n) fun _ => True := by
    intro k v out ho
    refine Buffer.put_ends (fun hr => ⟨ho, ?_⟩) fun _ => trivial
    rwa [ho] at hr
  have hf : ∀ k, Ends (img.pixels.fetch ImageError.overrun (index img.nx img.nc x y k)) (fun _ => True)
      fun _ => True := fun k => ends_trivial _
  unfold yccPixel
  refine (hf 2).bind fun _ _ => (hf 1).bind fun _ _ => (hf 0).bind fun _ _ => ?_
  refine (hp hn.symm).bind fun out ho => (hp ho.1).bind fun out ho => (hp ho.1).bind fun out ho => ?_
  have hc : Ends (img.yccCopy x y out)
      (fun out => out.size = n ∧ index img.nx img.nc x y (3 + (img.nc - 3) - 1) < n) fun _ => True := by
    refine forRange_ends (fun k (out : Buffer ℕ) => out.size = n ∧ index img.nx img.nc x y (k - 1) < n) ho
      fun k out hlo hk ho => ?_
    exact (hf k).bind fun _ _ => hp ho.1
  rwa [show 3 + (img.nc - 3) - 1 = img.nc - 1 by omega] at hc

theorem convertYCC2RGB_overruns (hbp : img.bps ≠ .eight) (hnc : 3 ≤ img.nc) (hx : 0 < img.nx) (hy : 0 < img.ny) :
    Ends img.convertYCC2RGB (fun _ => False) fun _ => True := by
  have hpx : 0 < img.nx * img.ny := Nat.mul_pos hx hy
  have hs : img.yccChannels * img.nx * img.ny + img.nx * img.ny = img.nc * (img.nx * img.ny) := by
    have hc : img.yccChannels + 1 = img.nc := by
      cases hb : img.bps with
      | eight => exact absurd hb hbp
      | sixteen =>
        rw [yccChannels, hb]
        exact Nat.sub_add_cancel (by omega)
    rw [← hc, Nat.mul_assoc, Nat.succ_mul]
  refine Ends.map (Q := fun _ => False) ?_ fun _ => False.elim
  refine (forPixels_ends (fun p (out : Buffer ℕ) => out.size = img.yccChannels * img.nx * img.ny ∧ p < img.nx * img.ny)
    ⟨rfl, hpx⟩ fun x hx y hy out ho => ?_).imp fun _ he => absurd he.2 (lt_irrefl _)
  refine (yccPixel_room hnc x y out).imp fun out' hr => ⟨hr.1.trans ho.1, ?_⟩
  -- otherwise the last channel of the last pixel would lie in the block
  by_contra hl
  have hp : y * img.nx + x + 1 = img.nx * img.ny := by omega
  have hi : index img.nx img.nc x y (img.nc - 1) + 1 = img.nc * (img.nx * img.ny) := by
    rw [← hp, index, Nat.mul_succ]
    omega
  have hlt := hr.2
  rw [ho.1] at hlt
  omega

theorem yccStays_of_eight (hfu : img.Full) (hc : (img.bps = .eight ∧ 3 ≤ img.nc) ∨ img.nx = 0 ∨ img.ny = 0) :
    img.YccStays := by
  have hs : img.yccChannels * img.nx * img.ny = img.nx * img.ny * img.nc := by
    rcases hc with ⟨hb, -⟩ | hx | hy
    · rw [yccChannels, hb]
      ring
    · simp [hx]
    · simp [hy]
  have hfl : Ends (forPixels img.nx img.ny img.yccPixel (.const (img.yccChannels * img.nx * img.ny) 0))
      (Filled img.nx img.ny img.nc (YccSample img) (img.nc * (img.nx * img.ny))) fun _ => False := by
    rw [hs]
    refine forPixels_ends (fun p => Filled img.nx img.ny img.nc (YccSample img) (img.nc * p)) (filled_zero ..)
      fun x hx y hy out ho => ?_
    exact yccPixel_fills hfu (hc.resolve_right (by omega)).2 hx hy ho
  obtain ⟨outbuf, ho, hf⟩ := hfl.exists_ok
  rw [Nat.mul_comm img.nc] at hf
  refine ⟨outbuf, ?_, hf.size, fun x hx y hy k hk h3 => hf.get hx hy hk h3⟩
  rw [convertYCC2RGB, ho]
  rfl

end

/-- **The conversion stays in its block exactly for eight bits**, or for an image without pixels. -/
theorem yccStays_iff (img : SipiImage) (hfull : img.Full) (hnc : 3 ≤ img.nc) :
    img.YccStays ↔ img.bps = .eight ∨ img.nx = 0 ∨ img.ny = 0 := by
  refine ⟨?_, fun hc => yccStays_of_eight hfull (hc.imp_left fun hb => ⟨hb, hnc⟩)⟩
  rintro ⟨outbuf, ho, -⟩
  by_contra hc
  obtain ⟨hb, hp⟩ := not_or.mp hc
  exact (convertYCC2RGB_overruns hb hnc (by omega) (by omega)).of_ok ho

theorem sixteen_bits_overrun : { colored [] with bps := .sixteen }.convertYCC2RGB = .error .overrun ∧
      ¬ { colored [] with bps := .sixteen }.YccStays := by
  have ho : { colored [] with bps := .sixteen }.convertYCC2RGB = .error .overrun := rfl
  refine ⟨ho, ?_⟩
  rintro ⟨outbuf, hot, -⟩
  cases ho.symm.trans hot

theorem yccStays_alpha : (colored [.assocAlpha]).YccStays :=
  (yccStays_iff (colored [.assocAlpha]) rfl (by decide)).mpr (Or.inl rfl)

end SipiImage

end Sipi.Image
